import Mathlib.Algebra.GroupWithZero.Nat
import Mathlib.Data.List.Pairwise
import ResourceArchive.Proofs.Pairing

/-! Runs of a registry, with nothing assumed of the files. Links may be pointed elsewhere and directories
    moved between any two calls, and the entries may be looked through in any order, so that a release may
    find an entry that its opener did not mean. Each call still exchanges one entry at most, which is what
    keeps the accounts: the entries count all openings that were not taken back, and a place gives out one
    container for as long as its entry stays. -/

namespace ResourceArchive

namespace Registry

variable {r r' : Registry} {e e' : Entry} {place other : Place}

/-! ### Entries -/

/-- An entry that was opened, under some path, and whose container was opened by the path of the place. -/
structure Entry.Kept (issued : Nat) (e : Entry) : Prop where
  opens_pos : 0 < e.opens
  aliased : e.aliases ≠ []
  path_eq : e.shared.image.path = FileSystem.pathOf e.place
  number_lt : e.shared.number < issued

/-- Entries of two places that hold two containers. -/
def Entry.Apart (e e' : Entry) : Prop := e.place ≠ e'.place ∧ e.shared.number ≠ e'.shared.number

theorem Entry.Apart.symm (apart : e.Apart e') : e'.Apart e := ⟨apart.1.symm, apart.2.symm⟩

instance : Std.Symm Entry.Apart := ⟨fun _ _ => Entry.Apart.symm⟩

/-- What holds of a registry at any time, whatever the order of its entries. -/
structure Sound (r : Registry) : Prop where
  kept : ∀ e ∈ r.entries, e.Kept r.issued
  apart : r.entries.Pairwise Entry.Apart

namespace Sound

theorem nil (empty : r.entries = []) : r.Sound := by
  constructor <;> simp [empty]

theorem of_perm (sound : r.Sound) (same : r.entries.Perm r'.entries) (issued : r.issued = r'.issued) :
    r'.Sound where
  kept e he := issued ▸ sound.kept e (same.mem_iff.2 he)
  apart := (same.pairwise_iff Entry.Apart.symm).1 sound.apart

theorem apart_of_ne (sound : r.Sound) (he : e ∈ r.entries) (he' : e' ∈ r.entries) (differ : e ≠ e') :
    e.Apart e' :=
  sound.apart.forall he he' differ

theorem eq_of_place_eq (sound : r.Sound) (he : e ∈ r.entries) (he' : e' ∈ r.entries)
    (same : e.place = e'.place) : e = e' := by
  by_contra differ
  exact (sound.apart_of_ne he he' differ).1 same

theorem eq_of_number_eq (sound : r.Sound) (he : e ∈ r.entries) (he' : e' ∈ r.entries)
    (same : e.shared.number = e'.shared.number) : e = e' := by
  by_contra differ
  exact (sound.apart_of_ne he he' differ).2 same

theorem at?_eq_some (sound : r.Sound) : r.at? place = some e ↔ e ∈ r.entries ∧ e.place = place := by
  refine ⟨Registry.at?_eq_some, ?_⟩
  rintro ⟨he, rfl⟩
  exact at?_of_mem he fun e' he' same => sound.eq_of_place_eq he' he same

theorem at?_of_perm (sound : r.Sound) (same : r.entries.Perm r'.entries)
    (issued : r.issued = r'.issued) : r'.at? place = r.at? place := by
  refine Option.ext fun e => ?_
  rw [sound.at?_eq_some, (sound.of_perm same issued).at?_eq_some, same.mem_iff]

/-- An entry and the others. -/
theorem perm_erase (sound : r.Sound) (he : e ∈ r.entries) :
    r.entries.Perm (e :: (r.erase e.place).entries) := by
  obtain ⟨front, back, parts⟩ := List.append_of_mem he
  have apart := sound.apart
  rw [parts, List.pairwise_append, List.pairwise_cons] at apart
  obtain ⟨-, ⟨behind, -⟩, before⟩ := apart
  have front' : front.filter (·.place ≠ e.place) = front := by
    rw [List.filter_eq_self]
    intro x hx
    simpa using (before x hx e (.head _)).1
  have back' : back.filter (·.place ≠ e.place) = back := by
    rw [List.filter_eq_self]
    intro x hx
    simpa using (behind x hx).1.symm
  have rest : (r.erase e.place).entries = front ++ back := by
    rw [erase, parts, List.filter_append, List.filter_cons_of_neg (by simp), front', back']
  rw [rest, parts]
  exact List.perm_middle

/-- Another entry instead of one, and the others. -/
theorem perm_modify (sound : r.Sound) (he : e ∈ r.entries) (f : Entry → Entry) :
    (r.modify e.place f).entries.Perm (f e :: (r.erase e.place).entries) := by
  have others : ∀ x ∈ (r.erase e.place).entries, (if x.place = e.place then f x else x) = x := by
    intro x hx
    exact if_neg (by simpa using (List.mem_filter.1 hx).2)
  have mapped := (sound.perm_erase he).map fun x => if x.place = e.place then f x else x
  rwa [List.map_cons, if_pos rfl, List.map_congr_left others, List.map_id'] at mapped

theorem modify (sound : r.Sound) (he : e ∈ r.entries) {f : Entry → Entry}
    (place : (f e).place = e.place) (shared : (f e).shared = e.shared) (opens : 0 < (f e).opens)
    (aliased : (f e).aliases ≠ []) : (r.modify e.place f).Sound := by
  have parts := sound.perm_erase he
  have apart := (parts.pairwise_iff Entry.Apart.symm).1 sound.apart
  have parts' := sound.perm_modify he f
  obtain ⟨-, -, path, number⟩ := sound.kept e he
  constructor
  · intro x hx
    rcases List.mem_cons.1 (parts'.mem_iff.1 hx) with rfl | hx
    · exact ⟨opens, aliased, by rw [shared, place, path], shared ▸ number⟩
    · exact sound.kept x (parts.mem_iff.2 (.tail _ hx))
  · rw [parts'.pairwise_iff Entry.Apart.symm, List.pairwise_cons]
    rw [List.pairwise_cons] at apart
    refine ⟨fun x hx => ?_, apart.2⟩
    rw [Entry.Apart, place, shared]
    exact apart.1 x hx

theorem erase (sound : r.Sound) (place : Place) : (r.erase place).Sound where
  kept e he := sound.kept e (List.mem_of_mem_filter he)
  apart := sound.apart.filter _

theorem register (sound : r.Sound) {shared : Shared} (new : r.at? place = none)
    (fresh : shared.number = r.issued) (path : shared.image.path = FileSystem.pathOf place)
    (spelling : List Component) :
    Sound { r with entries := r.entries ++ [⟨place, shared, 1, [spelling]⟩], issued := r.issued + 1 } := by
  constructor
  · intro x hx
    rcases List.mem_append.1 hx with hx | hx
    · obtain ⟨opens, aliased, path, number⟩ := sound.kept x hx
      exact ⟨opens, aliased, path, Nat.lt_succ_of_lt number⟩
    · obtain rfl := List.mem_singleton.1 hx
      exact ⟨Nat.one_pos, List.cons_ne_nil _ _, path, fresh ▸ Nat.lt_succ_self _⟩
  · rw [List.pairwise_append]
    refine ⟨sound.apart, List.pairwise_singleton _ _, fun x hx y hy => ?_⟩
    obtain rfl := List.mem_singleton.1 hy
    refine ⟨by simpa using List.find?_eq_none.1 new x hx, ?_⟩
    rw [fresh]
    exact Nat.ne_of_lt (sound.kept x hx).number_lt

end Sound

/-! ### Looking up -/

theorem at?_modify {f : Entry → Entry} (keeps : ∀ e, (f e).place = e.place) (place other : Place) :
    (r.modify place f).at? other
      = if other = place then (r.at? other).map f else r.at? other := by
  have same : (fun e : Entry => decide (e.place = other)) ∘ (fun e => if e.place = place then f e else e)
      = fun e => decide (e.place = other) := by
    funext e
    rw [Function.comp_apply]
    split
    · rw [keeps]
    · rfl
  rw [at?, modify, List.find?_map, same]
  rcases found : r.at? other with _ | e
  · rw [at?] at found
    simp [found]
  · obtain ⟨-, rfl⟩ := at?_eq_some found
    rw [at?] at found
    rw [found]
    split <;> simp_all

theorem at?_erase (place other : Place) :
    (r.erase place).at? other = if other = place then none else r.at? other := by
  rw [at?, erase, List.find?_filter]
  split
  · next same =>
    subst same
    simp
  · next apart =>
    refine congrArg (List.find? · r.entries) (funext fun e => ?_)
    by_cases here : e.place = other
    · simp [here, apart]
    · simp [here]

theorem at?_append (new : r.at? e.place = none) (n : Nat) (other : Place) :
    at? { r with entries := r.entries ++ [e], issued := n } other
      = if other = e.place then some e else r.at? other := by
  rw [at?, List.find?_append, ← at?]
  split
  · next same => simp [same, new]
  · next apart => simp [Ne.symm apart]

/-- How often the container of a place is open, if it is held. -/
def count? (r : Registry) (place : Place) : Option Nat := (r.at? place).map Entry.opens

/-- How often containers are open, all in all. -/
def total (r : Registry) : Nat := (r.entries.map Entry.opens).sum

theorem total_of_perm {rest : List Entry} (parts : r.entries.Perm (e :: rest)) :
    r.total = e.opens + (rest.map Entry.opens).sum := by
  rw [total, (parts.map Entry.opens).sum_nat, List.map_cons, List.sum_cons]

theorem Sound.total_modify (sound : r.Sound) (he : e ∈ r.entries) (f : Entry → Entry) :
    (r.modify e.place f).total + e.opens = r.total + (f e).opens := by
  rw [total_of_perm (sound.perm_modify he f), total_of_perm (sound.perm_erase he)]
  omega

theorem Sound.total_erase (sound : r.Sound) (he : e ∈ r.entries) :
    r.total = (r.erase e.place).total + e.opens := by
  rw [total_of_perm (sound.perm_erase he), Nat.add_comm]
  rfl

/-! ### What a call comes to -/

/-- What a path means is an entry that is held. -/
theorem mem_of_entryFor {fs : FileSystem} {p : Path} (meant : r.entryFor fs p = .ok (some e)) :
    e ∈ r.entries := by
  rw [entryFor] at meant
  split at meant
  · next e' found =>
    cases meant
    split at found
    · exact (at?_eq_some found).1
    · cases found
  · split at meant
    · cases meant
    · exact List.mem_of_find?_eq_some (Except.ok.inj meant)

/-- What a call comes to: a container is opened, or an opening of the container of a place is taken back, or
    all of them are, or the registry stays as it is. -/
inductive Account where
  | opened (place : Place) (shared : Shared)
  | closed (place : Place)
  | cleared
  | nothing

def Account.isOpened : Account → Bool
  | .opened .. => true
  | _ => false

def Account.isClosed : Account → Bool
  | .closed _ => true
  | _ => false

def Account.isCleared : Account → Bool
  | .cleared => true
  | _ => false

theorem Account.eq_cleared {account : Account} (h : account.isCleared) : account = .cleared := by
  cases account <;> first | rfl | cases h

/-- Takes back one of several openings. -/
def Entry.lessen (e : Entry) : Entry := { e with opens := e.opens - 1 }

/-- The registries between which a call is that comes to an account. -/
inductive Effect (r : Registry) : Account → Registry → Prop where
  | nothing : Effect r .nothing r
  | cleared : Effect r .cleared r.clear
  | reopened {e : Entry} (held : e ∈ r.entries) (spelling : List Component) :
      Effect r (.opened e.place e.shared) (r.modify e.place (·.reopen spelling))
  | registered {place : Place} {shared : Shared} (new : r.at? place = none)
      (fresh : shared.number = r.issued) (path : shared.image.path = FileSystem.pathOf place)
      (spelling : List Component) : Effect r (.opened place shared)
        { r with entries := r.entries ++ [⟨place, shared, 1, [spelling]⟩], issued := r.issued + 1 }
  | lessened {e : Entry} (held : e ∈ r.entries) (several : 1 < e.opens) :
      Effect r (.closed e.place) (r.modify e.place Entry.lessen)
  | dropped {e : Entry} (held : e ∈ r.entries) (last : ¬1 < e.opens) :
      Effect r (.closed e.place) (r.erase e.place)

namespace Effect

variable {account : Account} {shared h : Shared}

theorem sound (effect : r.Effect account r') (sound : r.Sound) : r'.Sound := by
  cases effect with
  | nothing => exact sound
  | cleared => exact .nil rfl
  | reopened held spelling =>
    exact sound.modify held rfl rfl (Nat.succ_pos _)
      (List.ne_nil_of_mem (List.mem_insert_self (a := spelling)))
  | registered new fresh path spelling => exact sound.register new fresh path spelling
  | lessened held several =>
    exact sound.modify held rfl rfl (Nat.sub_pos_of_lt several) (sound.kept _ held).aliased
  | dropped held last => exact sound.erase _

/-- All in all one opening more is counted, or one less, or none at all. -/
theorem total_eq (effect : r.Effect account r') (sound : r.Sound) :
    r'.total + (if account.isClosed then 1 else 0)
      = (if account.isCleared then 0 else r.total) + if account.isOpened then 1 else 0 := by
  cases effect with
  | nothing | cleared => rfl
  | @reopened e held spelling =>
    have total : (r.modify e.place (·.reopen spelling)).total + e.opens = r.total + (e.opens + 1) :=
      sound.total_modify held (·.reopen spelling)
    show (r.modify e.place (·.reopen spelling)).total + 0 = r.total + 1
    omega
  | registered new fresh path spelling =>
    simp [total, Account.isOpened, Account.isClosed, Account.isCleared]
  | @lessened e held several =>
    have total : (r.modify e.place Entry.lessen).total + e.opens = r.total + (e.opens - 1) :=
      sound.total_modify held Entry.lessen
    show (r.modify e.place Entry.lessen).total + 1 = r.total + 0
    omega
  | @dropped e held last =>
    have some := (sound.kept _ held).opens_pos
    have total := sound.total_erase held
    show (r.erase e.place).total + 1 = r.total + 0
    omega

/-- An opening counts one more in its place, from none on, and is of the container that is held there. -/
theorem opened (effect : r.Effect (.opened place shared) r') (sound : r.Sound) :
    r'.count? place = some ((r.count? place).getD 0 + 1)
      ∧ (∃ e, r'.at? place = some e ∧ e.shared = shared)
      ∧ ∀ other, other ≠ place → r'.at? other = r.at? other := by
  cases effect with
  | @reopened e held spelling =>
    have here := sound.at?_eq_some.2 ⟨held, rfl⟩
    have there := at?_modify (r := r) (f := (·.reopen spelling)) (fun _ => rfl) e.place
    refine ⟨?_, ⟨e.reopen spelling, ?_, rfl⟩, fun other apart => ?_⟩
    · rw [count?, there, if_pos rfl, count?, here]
      rfl
    · rw [there, if_pos rfl, here]
      rfl
    · rw [there, if_neg apart]
  | registered new fresh path spelling =>
    have there := at?_append (e := ⟨place, shared, 1, [spelling]⟩) new (r.issued + 1)
    refine ⟨?_, ⟨⟨place, shared, 1, [spelling]⟩, ?_, rfl⟩, fun other apart => ?_⟩
    · rw [count?, there, if_pos rfl, count?, new]
      rfl
    · rw [there, if_pos rfl]
    · rw [there, if_neg apart]

/-- Taking one back counts one less in its place, down to none. -/
theorem closed (effect : r.Effect (.closed place) r') (sound : r.Sound) :
    (∃ n, r.count? place = some (n + 1) ∧ r'.count? place = if n = 0 then none else some n)
      ∧ ∀ other, other ≠ place → r'.at? other = r.at? other := by
  cases effect with
  | @lessened e held several =>
    have here := sound.at?_eq_some.2 ⟨held, rfl⟩
    have there := at?_modify (r := r) (f := Entry.lessen) (fun _ => rfl) e.place
    refine ⟨⟨e.opens - 1, ?_, ?_⟩, fun other apart => ?_⟩
    · rw [count?, here, Option.map_some, Nat.sub_add_cancel several.le]
    · rw [count?, there, if_pos rfl, here, if_neg (by omega)]
      rfl
    · rw [there, if_neg apart]
  | @dropped e held last =>
    have here := sound.at?_eq_some.2 ⟨held, rfl⟩
    have some := (sound.kept _ held).opens_pos
    refine ⟨⟨0, ?_, ?_⟩, fun other apart => ?_⟩
    · rw [count?, here, Option.map_some, show e.opens = 0 + 1 by omega]
    · rw [count?, at?_erase, if_pos rfl, if_pos rfl]
      rfl
    · rw [at?_erase, if_neg apart]

theorem cleared_eq (effect : r.Effect .cleared r') : r'.entries = [] := by
  cases effect
  rfl

theorem nothing_eq (effect : r.Effect .nothing r') : r' = r := by
  cases effect
  rfl

end Effect

/-! ### What becomes of a container that was handed out -/

/-- A place has the container that was handed out there. -/
def Holds (r : Registry) (place : Place) (h : Shared) : Prop := ∃ e, r.at? place = some e ∧ e.shared = h

/-- A container that was handed out is not held, and never will be again. -/
def Forgot (r : Registry) (h : Shared) : Prop :=
  h.number < r.issued ∧ ∀ e ∈ r.entries, e.shared.number ≠ h.number

/-- From one registry to another, a place loses its entry. -/
def Drops (r r' : Registry) (place : Place) : Prop := (r.at? place).isSome ∧ r'.at? place = none

variable {h shared : Shared} {account : Account} {f : Entry → Entry}

theorem Holds.not_drops (holds : r'.Holds place h) : ¬r.Drops r' place := by
  obtain ⟨e, there, -⟩ := holds
  rintro ⟨-, gone⟩
  rw [there] at gone
  cases gone

theorem Holds.modify (holds : r.Holds place h) (keeps : ∀ e, (f e).place = e.place)
    (shared : ∀ e, (f e).shared = e.shared) : (r.modify other f).Holds place h := by
  obtain ⟨e, here, rfl⟩ := holds
  have there := at?_modify (r := r) keeps other place
  split at there
  · exact ⟨f e, by rw [there, here]; rfl, shared e⟩
  · exact ⟨e, there.trans here, rfl⟩

theorem Forgot.modify (forgot : r.Forgot h) (shared : ∀ e, (f e).shared = e.shared) :
    (r.modify place f).Forgot h := by
  refine ⟨forgot.1, fun x hx => ?_⟩
  obtain ⟨old, hold, rfl⟩ := List.mem_map.1 hx
  split
  · rw [shared]
    exact forgot.2 old hold
  · exact forgot.2 old hold

namespace Effect

/-- What was handed out in a place is held there for as long as the place has an entry, and is forgotten
    when the entry goes. -/
theorem holds (effect : r.Effect account r') (sound : r.Sound) (holds : r.Holds place h) :
    ¬r.Drops r' place ∧ r'.Holds place h ∨ r.Drops r' place ∧ r'.Forgot h := by
  have stays (there : r'.Holds place h) : ¬r.Drops r' place ∧ r'.Holds place h := ⟨there.not_drops, there⟩
  obtain ⟨e, here, same⟩ := id holds
  obtain ⟨he, home⟩ := at?_eq_some here
  have issued : h.number < r.issued := same ▸ (sound.kept e he).number_lt
  cases effect with
  | nothing => exact .inl (stays holds)
  | cleared => exact .inr ⟨⟨by rw [here]; rfl, rfl⟩, issued, by simp [clear]⟩
  | reopened held spelling =>
    exact .inl (stays (holds.modify (fun _ => rfl) fun _ => rfl))
  | @registered new added free fresh path spelling =>
    have apart : place ≠ new := by
      rintro rfl
      rw [free] at here
      cases here
    have there := at?_append (e := ⟨new, added, 1, [spelling]⟩) free (r.issued + 1) place
    rw [if_neg apart] at there
    exact .inl (stays ⟨e, there.trans here, same⟩)
  | lessened held several =>
    exact .inl (stays (holds.modify (fun _ => rfl) fun _ => rfl))
  | @dropped gone held last =>
    by_cases there : place = gone.place
    · refine .inr ⟨⟨by rw [here]; rfl, by rw [at?_erase, if_pos there]⟩, issued, fun x hx number => ?_⟩
      -- Only the entry that went had the number.
      obtain ⟨hx, apart⟩ := List.mem_filter.1 hx
      obtain rfl := sound.eq_of_number_eq hx he (number.trans (congrArg Shared.number same.symm))
      exact of_decide_eq_true apart (home.trans there)
    · exact .inl (stays ⟨e, by rw [at?_erase, if_neg there, here], same⟩)

/-- What was forgotten stays so, since a new container has a new number. -/
theorem forgot (effect : r.Effect account r') (forgot : r.Forgot h) : r'.Forgot h := by
  cases effect with
  | nothing => exact forgot
  | cleared => exact ⟨forgot.1, by simp [clear]⟩
  | reopened | lessened => exact forgot.modify fun _ => rfl
  | registered new fresh path spelling =>
    refine ⟨Nat.lt_succ_of_lt forgot.1, fun x hx => ?_⟩
    rcases List.mem_append.1 hx with hx | hx
    · exact forgot.2 x hx
    · obtain rfl := List.mem_singleton.1 hx
      rw [fresh]
      exact Nat.ne_of_gt forgot.1
  | dropped => exact ⟨forgot.1, fun x hx => forgot.2 x (List.mem_of_mem_filter hx)⟩

/-- What is handed out is what the place has, or has a number that nothing had before. -/
theorem handed (effect : r.Effect (.opened place h) r') (sound : r.Sound) :
    r.Holds place h ∨ r.at? place = none ∧ h.number = r.issued := by
  cases effect with
  | reopened held spelling => exact .inl ⟨_, sound.at?_eq_some.2 ⟨held, rfl⟩, rfl⟩
  | registered new fresh path spelling => exact .inr ⟨new, fresh⟩

/-- The same container is handed out twice exactly if it is held and the place is the same. -/
theorem same_iff {place₁ place₂ : Place} {h₁ h₂ : Shared} (effect : r.Effect (.opened place₂ h₂) r')
    (sound : r.Sound) (holds : r.Holds place₁ h₁) :
    (h₁.number = h₂.number ↔ place₁ = place₂) ∧ (h₁.number = h₂.number → h₁ = h₂) := by
  obtain ⟨e₁, here₁, rfl⟩ := holds
  obtain ⟨he₁, rfl⟩ := at?_eq_some here₁
  rcases effect.handed sound with ⟨e₂, here₂, rfl⟩ | ⟨new, fresh⟩
  · obtain ⟨he₂, rfl⟩ := at?_eq_some here₂
    refine ⟨⟨fun same => ?_, fun same => ?_⟩, fun same => ?_⟩
    · rw [sound.eq_of_number_eq he₁ he₂ same]
    · rw [sound.eq_of_place_eq he₁ he₂ same]
    · rw [sound.eq_of_number_eq he₁ he₂ same]
  · have apart : e₁.shared.number ≠ h₂.number := fresh ▸ Nat.ne_of_lt (sound.kept e₁ he₁).number_lt
    refine ⟨⟨fun same => absurd same apart, ?_⟩, fun same => absurd same apart⟩
    rintro rfl
    rw [here₁] at new
    cases new

theorem ne_of_forgot {h₁ h₂ : Shared} (effect : r.Effect (.opened place h₂) r') (sound : r.Sound)
    (forgot : r.Forgot h₁) : h₁.number ≠ h₂.number := by
  rcases effect.handed sound with ⟨e, here, rfl⟩ | ⟨-, fresh⟩
  · exact (forgot.2 e (at?_eq_some here).1).symm
  · exact fresh ▸ Nat.ne_of_lt forgot.1

end Effect

end Registry

/-! ### Runs -/

namespace Session

/-- A call, and the session in which it is made. -/
structure Call where
  session : Session
  event : Event

namespace Call

/-- What a call comes to. An opening is of the place to which its path leads; what is taken back is an opening
    of the entry that is found. -/
def account (c : Call) : Registry.Account :=
  match c.event with
  | .acquire p =>
    match c.session.files.canonicalize p, c.session.registry.acquire c.session.files p with
    | .ok place, .ok (shared, _) => .opened place shared
    | _, _ => .nothing
  | .release p =>
    match c.session.registry.entryFor c.session.files p with
    | .ok (some e) => .closed e.place
    | _ => .nothing
  | .clear => .cleared
  | .openCount _ | .size | .change _ => .nothing

/-- The registry after a call. -/
def after (c : Call) : Registry := (c.session.step c.event).registry

/-- A call lets the container of a place go. -/
def Drops (c : Call) (place : Place) : Prop := c.session.registry.Drops c.after place

theorem effect (c : Call) : c.session.registry.Effect c.account c.after := by
  obtain ⟨s, event⟩ := c
  cases event with
  | acquire p =>
    rcases s.registry.openAt_cases s.files p with ⟨cause, call⟩ | ⟨place, absolute, found, made, outcome⟩
    · have failed : s.registry.acquire s.files p = .error cause := by
        rw [Registry.acquire, call]
        rfl
      have stays : after ⟨s, .acquire p⟩ = s.registry := by simp only [after, step, call]
      have unopened : account ⟨s, .acquire p⟩ = .nothing := by
        rw [account]
        rcases found : s.files.canonicalize p <;> simp only [failed, found]
      rw [stays, unopened]
      exact .nothing
    have opened {shared : Shared} {registry : Registry}
        (call : s.registry.openAt s.files p = (.ok shared, registry)) :
        after ⟨s, .acquire p⟩ = registry ∧ account ⟨s, .acquire p⟩ = .opened place shared := by
      have acquired : s.registry.acquire s.files p = .ok (shared, registry) := by
        rw [Registry.acquire, call]
        rfl
      constructor
      · simp only [after, step, call, FileSystem.spelling?, made]
        rfl
      · rw [account]
        simp only [acquired, found]
    rcases outcome with ⟨e, held, call⟩ | ⟨new, shared, fresh, path, call⟩
    · obtain ⟨he, rfl⟩ := Registry.at?_eq_some held
      rw [(opened call).1, (opened call).2]
      exact .reopened he _
    · rw [(opened call).1, (opened call).2]
      exact .registered new fresh path _
  | release p =>
    rcases meant : s.registry.entryFor s.files p with cause | _ | e
    · have stays : after ⟨s, .release p⟩ = s.registry := by
        simp only [after, step, Registry.closeAt, meant]
      rw [stays, account]
      simp only [meant]
      exact .nothing
    · have stays : after ⟨s, .release p⟩ = s.registry := by
        simp only [after, step, Registry.closeAt, meant]
      rw [stays, account]
      simp only [meant]
      exact .nothing
    · have he := Registry.mem_of_entryFor meant
      have closed : account ⟨s, .release p⟩ = .closed e.place := by
        rw [account]
        simp only [meant]
      have call := Registry.closeAt_of_entryFor meant
      rw [closed, after]
      by_cases several : 1 < e.opens
      · rw [if_pos several] at call
        simp only [step, call]
        exact .lessened he several
      · rw [if_neg several] at call
        simp only [step, call]
        exact .dropped he several
  | openCount | size | change => exact .nothing
  | clear => exact .cleared

end Call

/-- The sessions that calls lead to, the latest call first. Between calls the order of the entries may
    change in any way. -/
inductive Run : List Call → Session → Prop where
  | start (order : ByteOrder) (files : FileSystem) :
      Run [] { registry := { order := order }, files := files }
  | call {past : List Call} {s : Session} (run : Run past s) (event : Event) :
      Run (⟨s, event⟩ :: past) (s.step event)
  | shuffle {past : List Call} {s : Session} {entries : List Registry.Entry} (run : Run past s)
      (same : s.registry.entries.Perm entries) :
      Run past (s.reorder entries)

/-- The calls since all containers were let go. -/
def sinceCleared (past : List Call) : List Call := past.takeWhile fun c => !c.account.isCleared

theorem sinceCleared_cons (c : Call) (past : List Call) : sinceCleared (c :: past)
    = if c.account.isCleared then [] else c :: sinceCleared past := by
  rw [sinceCleared, List.takeWhile_cons]
  cases c.account.isCleared <;> rfl

/-- Number of openings among calls. -/
def opened (calls : List Call) : Nat := calls.countP fun c => c.account.isOpened

/-- Number of openings that calls took back. -/
def closed (calls : List Call) : Nat := calls.countP fun c => c.account.isClosed

theorem opened_cons (c : Call) (calls : List Call) :
    opened (c :: calls) = opened calls + if c.account.isOpened then 1 else 0 := List.countP_cons

theorem closed_cons (c : Call) (calls : List Call) :
    closed (c :: calls) = closed calls + if c.account.isClosed then 1 else 0 := List.countP_cons

namespace Run

variable {s : Session} {past earlier between : List Call} {c c₁ c₂ : Call} {place : Place} {h : Shared}

theorem sound (run : Run past s) : s.registry.Sound := by
  induction run with
  | start order files => exact .nil rfl
  | @call past s run event ih => exact (Call.effect ⟨s, event⟩).sound ih
  | shuffle run same ih => exact ih.of_perm same rfl

theorem total_eq (run : Run past s) :
    s.registry.total + closed (sinceCleared past) = opened (sinceCleared past) := by
  induction run with
  | start order files => rfl
  | @call past s run event ih =>
    have effect := Call.effect ⟨s, event⟩
    have total := effect.total_eq run.sound
    rw [sinceCleared_cons]
    by_cases cleared : (Call.account ⟨s, event⟩).isCleared
    · rw [Registry.Account.eq_cleared cleared] at effect
      rw [if_pos cleared]
      exact congrArg (fun entries => (entries.map Registry.Entry.opens).sum) effect.cleared_eq
    -- Nothing before a call that clears is counted, and all before any other.
    · rw [if_neg cleared] at total ⊢
      have total : (s.step event).registry.total + _ = s.registry.total + _ := total
      rw [opened_cons, closed_cons]
      omega
  | @shuffle past s entries run same ih =>
    have total : ({ s.registry with entries := entries } : Registry).total = s.registry.total :=
      (same.map Registry.Entry.opens).sum_nat.symm
    exact total.symm ▸ ih

/-- The session of a call is one that the calls before it lead to. -/
theorem of_suffix (run : Run past s) (suffix : (c :: earlier) <:+ past) : Run earlier c.session := by
  induction run with
  | start order files => exact absurd (List.suffix_nil.1 suffix) (List.cons_ne_nil _ _)
  | @call past s run event ih =>
    rcases List.suffix_cons_iff.1 suffix with same | within
    · cases same
      exact run
    · exact ih within
  | shuffle run same ih => exact ih suffix

/-- What was handed out in a place is held there until a call drops the entry of the place, and is forgotten
    from then on. -/
theorem fate (run : Run past s) (parts : past = between ++ c₁ :: earlier)
    (opened : c₁.account = .opened place h) :
    (∀ c ∈ between, ¬c.Drops place) ∧ s.registry.Holds place h
      ∨ (∃ c ∈ between, c.Drops place) ∧ s.registry.Forgot h := by
  -- From the opening on, later calls are added in front of it, so that `between` grows with the run.
  induction run generalizing between with
  | start order files => simp at parts
  | @call past s run event ih =>
    have effect := Call.effect ⟨s, event⟩
    rcases between with _ | ⟨c, between⟩
    · obtain ⟨rfl, -⟩ := List.cons.inj parts
      rw [opened] at effect
      exact .inl ⟨by simp, (effect.opened run.sound).2.1⟩
    · obtain ⟨rfl, rest⟩ := List.cons.inj parts
      rcases ih rest with ⟨kept, holds⟩ | ⟨⟨c, hc, dropped⟩, forgot⟩
      · rcases effect.holds run.sound holds with ⟨stays, holds⟩ | ⟨drops, forgot⟩
        · exact .inl ⟨List.forall_mem_cons.2 ⟨stays, kept⟩, holds⟩
        · exact .inr ⟨⟨_, .head _, drops⟩, forgot⟩
      · exact .inr ⟨⟨c, .tail _ hc, dropped⟩, effect.forgot forgot⟩
  | @shuffle past s entries run same ih =>
    rcases ih parts with ⟨kept, e, here, shared⟩ | ⟨dropped, issued, others⟩
    · have moved : Registry.at? { s.registry with entries := entries } place = s.registry.at? place :=
        run.sound.at?_of_perm same rfl
      exact .inl ⟨kept, e, moved.trans here, shared⟩
    · exact .inr ⟨dropped, issued, fun e he => others e (same.mem_iff.2 he)⟩

/-- Two openings hand the same container out exactly if they are of one place whose entry was not dropped
    between them. -/
theorem same_iff {place₁ place₂ : Place} {h₁ h₂ : Shared} (run : Run past s)
    (suffix : (c₂ :: (between ++ c₁ :: earlier)) <:+ past) (opened₁ : c₁.account = .opened place₁ h₁)
    (opened₂ : c₂.account = .opened place₂ h₂) :
    (h₁.number = h₂.number ↔ place₁ = place₂ ∧ ∀ c ∈ between, ¬c.Drops place₁)
      ∧ (h₁.number = h₂.number → h₁ = h₂) := by
  have before := run.of_suffix suffix
  have effect := c₂.effect
  rw [opened₂] at effect
  rcases before.fate rfl opened₁ with ⟨kept, holds⟩ | ⟨⟨c, hc, dropped⟩, forgot⟩
  · obtain ⟨places, shared⟩ := effect.same_iff before.sound holds
    exact ⟨by rw [places, and_iff_left kept], shared⟩
  · have differ := effect.ne_of_forgot before.sound forgot
    exact ⟨⟨fun same => absurd same differ, fun ⟨_, kept⟩ => absurd dropped (kept c hc)⟩,
      fun same => absurd same differ⟩

end Run

/-- Whatever becomes of the files, and in whatever order entries are found. Every entry is open, has a path
    under which it was opened, and holds a container that was opened by the path of its place. The entries
    count the openings since all containers were let go, less those that were taken back. A call that fails
    changes nothing, nor does a question; an opening counts one more in its place alone, and one that is
    taken back one less. And two openings hand the same container out exactly if they are of one place
    whose entry was not dropped between them. -/
theorem accounts_of_run {past : List Call} {s : Session} (run : Run past s) :
    (∀ e ∈ s.registry.entries, 0 < e.opens ∧ e.aliases ≠ []
      ∧ e.shared.image.path = FileSystem.pathOf e.place)
    ∧ s.registry.total + closed (sinceCleared past) = opened (sinceCleared past)
    ∧ (∀ p cause, (s.registry.openAt s.files p).1 = .error cause → s.step (.acquire p) = s)
    ∧ (∀ p cause, (s.registry.closeAt s.files p).1 = .error cause → s.step (.release p) = s)
    ∧ (∀ p, s.step (.openCount p) = s) ∧ s.step .size = s
    ∧ (∀ event, match Call.account ⟨s, event⟩ with
        | .opened place _ =>
          (s.step event).registry.count? place = some ((s.registry.count? place).getD 0 + 1)
            ∧ ∀ other, other ≠ place → (s.step event).registry.at? other = s.registry.at? other
        | .closed place =>
          (∃ n, s.registry.count? place = some (n + 1)
              ∧ (s.step event).registry.count? place = if n = 0 then none else some n)
            ∧ ∀ other, other ≠ place → (s.step event).registry.at? other = s.registry.at? other
        | .cleared => (s.step event).registry.entries = []
        | .nothing => (s.step event).registry = s.registry)
    ∧ ∀ c₂ between c₁ earlier place₁ h₁ place₂ h₂, (c₂ :: (between ++ c₁ :: earlier)) <:+ past →
        c₁.account = .opened place₁ h₁ → c₂.account = .opened place₂ h₂ →
        (h₁.number = h₂.number ↔ place₁ = place₂ ∧ ∀ c ∈ between, ¬c.Drops place₁)
          ∧ (h₁.number = h₂.number → h₁ = h₂) := by
  refine ⟨?_, run.total_eq, ?_, ?_, fun _ => rfl, rfl, ?_, ?_⟩
  · intro e he
    obtain ⟨opens, aliased, path, -⟩ := run.sound.kept e he
    exact ⟨opens, aliased, path⟩
  · intro p cause failed
    simp only [step, failed, Registry.openAt_of_error failed]
  · intro p cause failed
    simp only [step, failed, Registry.closeAt_of_error failed]
  · intro event
    have effect := Call.effect ⟨s, event⟩
    rcases account : Call.account ⟨s, event⟩ with ⟨place, shared⟩ | place | _ | _ <;>
      rw [account] at effect
    · obtain ⟨count, -, others⟩ := effect.opened run.sound
      exact ⟨count, others⟩
    · exact effect.closed run.sound
    · exact effect.cleared_eq
    · exact effect.nothing_eq
  · intro c₂ between c₁ earlier place₁ h₁ place₂ h₂ suffix opened₁ opened₂
    exact run.same_iff suffix opened₁ opened₂

/-- The session before the calls of `repointed`, and the one after the first of them. -/
def pointed : Session := { registry := {}, files := linkedTo "a" }

def pointedOpen : Session := pointed.step (.acquire ⟨utf8 "l"⟩)

/-- The calls of `repointed`, and one more through `l`, which leads to `b` by then. -/
def repointedCalls : List Call :=
  [⟨repointed, .acquire ⟨utf8 "l"⟩⟩,
    ⟨pointedOpen.step (.acquire ⟨utf8 "b"⟩), .change (linkedTo "b")⟩,
    ⟨pointedOpen, .acquire ⟨utf8 "b"⟩⟩, ⟨pointed, .acquire ⟨utf8 "l"⟩⟩]

/-- What `l` gives out at the end is what `b` did, and not what `l` gave out at first. -/
theorem accounts_of_run_repointed : ∃ h₁ h₂ h₄,
    repointedCalls.map Call.account = [.opened [utf8 "b"] h₄, .nothing, .opened [utf8 "b"] h₂,
      .opened [utf8 "a"] h₁]
    ∧ h₂ = h₄ ∧ h₁.number ≠ h₄.number
    ∧ (repointed.step (.acquire ⟨utf8 "l"⟩)).registry.total = 3 := by
  have run : Run repointedCalls (repointed.step (.acquire ⟨utf8 "l"⟩)) :=
    .call (.call (.call (.call (.start .little (linkedTo "a")) (.acquire ⟨utf8 "l"⟩))
      (.acquire ⟨utf8 "b"⟩)) (.change (linkedTo "b"))) (.acquire ⟨utf8 "l"⟩)
  obtain ⟨-, total, -, -, -, -, -, handles⟩ := accounts_of_run run
  obtain ⟨h₁, first⟩ : ∃ h, Call.account ⟨pointed, .acquire ⟨utf8 "l"⟩⟩ = .opened [utf8 "a"] h := ⟨_, rfl⟩
  obtain ⟨h₂, second⟩ : ∃ h, Call.account ⟨pointedOpen, .acquire ⟨utf8 "b"⟩⟩ = .opened [utf8 "b"] h :=
    ⟨_, rfl⟩
  obtain ⟨h₄, last⟩ : ∃ h, Call.account ⟨repointed, .acquire ⟨utf8 "l"⟩⟩ = .opened [utf8 "b"] h := ⟨_, rfl⟩
  have stays (s : Session) (files : FileSystem) (place : Place) :
      ¬Call.Drops ⟨s, .change files⟩ place := by
    rintro ⟨some, gone⟩
    rw [show s.registry.at? place = none from gone] at some
    cases some
  obtain ⟨same, shared⟩ := handles _ [_] _ _ _ _ _ _ (List.suffix_refl _) second last
  obtain ⟨other, -⟩ := handles _ [_, _] _ [] _ _ _ _ (List.suffix_refl _) first last
  refine ⟨h₁, h₂, h₄, ?_, ?_, ?_, ?_⟩
  · simp only [repointedCalls, List.map_cons, List.map_nil, first, second, last]
    rfl
  · refine shared (same.2 ⟨rfl, fun c hc => ?_⟩)
    rw [List.mem_singleton.1 hc]
    exact stays _ _ _
  · intro number
    exact absurd (other.1 number).1 (by decide)
  · have counted : opened (sinceCleared repointedCalls) = 3 := by decide +kernel
    have none : closed (sinceCleared repointedCalls) = 0 := by decide +kernel
    omega

end Session

end ResourceArchive
