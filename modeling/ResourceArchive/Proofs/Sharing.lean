import Mathlib.Data.List.Dedup
import ResourceArchive.Proofs.FileBacked

/-! Sessions of a registry. A session is the registry among the files it opens, with the openings that
    were not taken back. As long as a path always leads to the same place, or nowhere, the registry is
    balanced: each entry counts the openings of the paths that lead to its place, whatever became of the
    file. -/

namespace ResourceArchive

/-- The components of a path made absolute, if it can be. -/
def FileSystem.spelling? (fs : FileSystem) (p : Path) : Option (List Component) :=
  (fs.absolute p).toOption.map Path.components

/-- An opening that succeeded: the path, as the components of its absolute form, and the container that
    was handed out. -/
structure Opening where
  path : List Component
  shared : Shared
  deriving DecidableEq

structure Session where
  registry : Registry
  files : FileSystem
  /-- The openings since the registry was last cleared that were not taken back, the latest first. -/
  openings : List Opening := []

namespace Session

/-- What happens in a session. -/
inductive Event where
  | acquire (p : Path)
  | release (p : Path)
  | openCount (p : Path)
  | size
  | clear
  /-- The files change, in whatever way. -/
  | change (files : FileSystem)

/-- Whether an opening was of a path. -/
def isOf (s : Session) (p : Path) (o : Opening) : Bool := s.files.spelling? p = some o.path

/-- What an event leads to. -/
def step (s : Session) : Event → Session
  | .acquire p =>
    let (outcome, registry) := s.registry.openAt s.files p
    match outcome, s.files.spelling? p with
    | .ok shared, some path =>
      { s with registry := registry, openings := ⟨path, shared⟩ :: s.openings }
    | _, _ => { s with registry := registry }
  | .release p =>
    let (outcome, registry) := s.registry.closeAt s.files p
    match outcome with
    | .ok _ => { s with registry := registry, openings := s.openings.eraseP (s.isOf p) }
    | .error _ => { s with registry := registry }
  | .openCount _ | .size => s
  | .clear => { s with registry := s.registry.clear, openings := [] }
  | .change files => { s with files := files }

/-- The session with the entries of the registry in another order. -/
def reorder (s : Session) (entries : List Registry.Entry) : Session :=
  { s with registry := { s.registry with entries := entries } }

/-- The sessions to which permitted events lead from a registry without entries. Between events the order
    of the entries may change in any way. -/
inductive Reaches (permitted : Session → Event → Prop) : Session → Prop where
  | start (order : ByteOrder) (files : FileSystem) :
      Reaches permitted { registry := { order := order }, files := files }
  | step {s : Session} {e : Event} (reached : Reaches permitted s) (may : permitted s e) :
      Reaches permitted (s.step e)
  | shuffle {s : Session} {entries : List Registry.Entry} (reached : Reaches permitted s)
      (same : s.registry.entries.Perm entries) : Reaches permitted (s.reorder entries)

end Session

/-- An open container keeps the path by which it was opened. -/
theorem FileSystem.path_of_openArchive {fs : FileSystem} {o : ByteOrder} {p : Path} {image : OpenFile}
    (opened : fs.openArchive o p = .ok image) : image.path = p := by
  rw [openArchive] at opened
  split at opened
  · cases opened
  · split at opened
    · cases opened
    · cases opened
      rfl

namespace Registry

variable {r r' : Registry} {fs : FileSystem} {p : Path} {place : Place} {e : Entry}

/-! ### What the calls do -/

theorem at?_eq_some (h : r.at? place = some e) : e ∈ r.entries ∧ e.place = place :=
  ⟨List.mem_of_find?_eq_some h, by simpa using List.find?_some h⟩

/-- An entry that is alone in its place is the entry of the place. -/
theorem at?_of_mem (he : e ∈ r.entries) (alone : ∀ e' ∈ r.entries, e'.place = e.place → e' = e) :
    r.at? e.place = some e := by
  rcases found : r.at? e.place with _ | e'
  · exact absurd rfl (of_decide_eq_false (eq_false_of_ne_true (List.find?_eq_none.1 found e he)))
  · obtain ⟨he', same⟩ := at?_eq_some found
    rw [alone e' he' same]

/-- All that an opening can do: it fails and leaves the registry as it was, or the path leads to a place, and
    the entry of that place is shared or a new one is made, of a container that was not handed out before. -/
theorem openAt_cases (r : Registry) (fs : FileSystem) (p : Path) :
    (∃ cause, r.openAt fs p = (.error cause, r))
    ∨ ∃ place absolute, fs.canonicalize p = .ok place ∧ fs.absolute p = .ok absolute ∧
      ((∃ e, r.at? place = some e
          ∧ r.openAt fs p = (.ok e.shared, r.modify place (·.reopen absolute.components)))
        ∨ (r.at? place = none ∧ ∃ shared : Shared, shared.number = r.issued
          ∧ shared.image.path = FileSystem.pathOf place
          ∧ r.openAt fs p = (.ok shared, { r with
              entries := r.entries ++ [⟨place, shared, 1, [absolute.components]⟩]
              issued := r.issued + 1 }))) := by
  rw [openAt]
  rcases found : fs.canonicalize p with cause | place
  · exact .inl ⟨_, rfl⟩
  rcases made : fs.absolute p with cause | absolute
  · exact .inl ⟨_, rfl⟩
  rcases held : r.at? place with _ | e
  · rcases opened : fs.openArchive r.order (FileSystem.pathOf place) with cause | image
    · exact .inl ⟨cause, by simp only [held, opened]⟩
    · exact .inr ⟨place, absolute, rfl, rfl, .inr ⟨held, ⟨r.issued, image⟩, rfl,
        FileSystem.path_of_openArchive opened, by simp only [held, opened]⟩⟩
  · exact .inr ⟨place, absolute, rfl, rfl, .inl ⟨e, held, by simp only [held]⟩⟩

/-- An opening that fails leaves the registry as it was. -/
theorem openAt_of_error {cause : Error} (failed : (r.openAt fs p).1 = .error cause) :
    (r.openAt fs p).2 = r := by
  rcases r.openAt_cases fs p with ⟨_, call⟩ | ⟨_, _, -, -, ⟨_, -, call⟩ | ⟨-, _, -, -, call⟩⟩
  · rw [call]
  · rw [call] at failed
    cases failed
  · rw [call] at failed
    cases failed

/-- What is closed is the entry that the path means. -/
theorem closeAt_of_entryFor (h : r.entryFor fs p = .ok (some e)) : r.closeAt fs p =
    if 1 < e.opens then (.ok false, r.modify e.place fun e => { e with opens := e.opens - 1 })
    else (.ok true, r.erase e.place) := by
  rw [closeAt, h]

theorem closeAt_of_error {cause : Error} (failed : (r.closeAt fs p).1 = .error cause) :
    (r.closeAt fs p).2 = r := by
  rcases meant : r.entryFor fs p with _ | _ | e
  · rw [closeAt, meant]
  · rw [closeAt, meant]
  · rw [closeAt_of_entryFor meant] at failed
    split at failed <;> cases failed

theorem release_of_entryFor (h : r.entryFor fs p = .ok (some e)) : r.release fs p =
    .ok (if 1 < e.opens then (false, r.modify e.place fun e => { e with opens := e.opens - 1 })
      else (true, r.erase e.place)) := by
  rw [release, closeAt_of_entryFor h]
  split <;> rfl

theorem openCount_of_entryFor (h : r.entryFor fs p = .ok (some e)) : r.openCount fs p = e.opens := by
  rw [openCount, h]

/-- The entry of the place to which a path leads comes before any that was opened under the path. -/
theorem entryFor_of_at? (found : fs.canonicalize p = .ok place) (held : r.at? place = some e) :
    r.entryFor fs p = .ok (some e) := by
  simp only [entryFor, found, held]

theorem entryFor_of_canonicalize_error {cause : SystemError} {path : List Component}
    (lost : fs.canonicalize p = .error cause) (spelled : fs.spelling? p = some path) :
    r.entryFor fs p = .ok (r.entries.find? fun e => e.aliases.contains path) := by
  rw [FileSystem.spelling?] at spelled
  rcases absolute : fs.absolute p with cause | a
  · rw [absolute] at spelled
    cases spelled
  · rw [absolute] at spelled
    cases spelled
    simp only [entryFor, lost, absolute]

/-! ### Balance -/

/-- Each entry counts the openings of the paths at home in its place, and each opening is counted. -/
structure Balanced (home : List Component → Place) (r : Registry) (openings : List Opening) : Prop where
  places_nodup : (r.entries.map Entry.place).Nodup
  opens_eq : ∀ e ∈ r.entries, e.opens = openings.countP fun o => home o.path = e.place
  opens_pos : ∀ e ∈ r.entries, 0 < e.opens
  aliases_home : ∀ e ∈ r.entries, ∀ path ∈ e.aliases, home path = e.place
  counted : ∀ o ∈ openings, ∃ e ∈ r.entries,
    e.place = home o.path ∧ o.path ∈ e.aliases ∧ e.shared = o.shared

namespace Balanced

variable {home : List Component → Place} {openings : List Opening} {path : List Component}

theorem nil (home : List Component → Place) {r : Registry} (empty : r.entries = []) :
    Balanced home r [] := by
  constructor <;> simp [empty]

theorem eq_of_place_eq (b : Balanced home r openings) {e e' : Entry} (he : e ∈ r.entries)
    (he' : e' ∈ r.entries) (same : e.place = e'.place) : e = e' :=
  List.inj_on_of_nodup_map b.places_nodup he he' same

theorem at?_place (b : Balanced home r openings) (he : e ∈ r.entries) : r.at? e.place = some e :=
  at?_of_mem he fun _ he' same => b.eq_of_place_eq he' he same

/-- A path with an opening means the entry in which that opening is counted, whether the path leads there
    or nowhere. -/
theorem entryFor_eq (b : Balanced home r openings) {o : Opening} (ho : o ∈ openings)
    (spelled : fs.spelling? p = some o.path)
    (atHome : ∀ place, fs.canonicalize p = .ok place → home o.path = place) :
    ∃ e ∈ r.entries, r.entryFor fs p = .ok (some e) ∧ e.place = home o.path
      ∧ e.shared = o.shared := by
  obtain ⟨e, he, place, named, shared⟩ := b.counted o ho
  refine ⟨e, he, ?_, place, shared⟩
  rcases found : fs.canonicalize p with cause | there
  · rw [entryFor_of_canonicalize_error found spelled]
    rcases search : r.entries.find? fun e => e.aliases.contains o.path with _ | e'
    · exact absurd (List.contains_iff_mem.2 named) (List.find?_eq_none.1 search e he)
    · have he' := List.mem_of_find?_eq_some search
      have named' := b.aliases_home e' he' o.path (by simpa using List.find?_some search)
      rw [search, b.eq_of_place_eq he' he (named'.symm.trans place.symm)]
  · refine entryFor_of_at? found ?_
    rw [← atHome there found, ← place]
    exact b.at?_place he

/-! ### What the calls preserve -/

/-- The order of the entries does not matter. -/
theorem of_perm (b : Balanced home r openings) (same : r.entries.Perm r'.entries) :
    Balanced home r' openings where
  places_nodup := (same.map Entry.place).nodup_iff.1 b.places_nodup
  opens_eq e he := b.opens_eq e (same.mem_iff.2 he)
  opens_pos e he := b.opens_pos e (same.mem_iff.2 he)
  aliases_home e he := b.aliases_home e (same.mem_iff.2 he)
  counted o ho := by
    obtain ⟨e, he, rest⟩ := b.counted o ho
    exact ⟨e, same.mem_iff.1 he, rest⟩

theorem mem_modify (b : Balanced home r openings) (he : e ∈ r.entries) {f : Entry → Entry}
    {e' : Entry} : e' ∈ (r.modify e.place f).entries
      ↔ e' = f e ∨ e' ∈ r.entries ∧ e'.place ≠ e.place := by
  rw [modify, List.mem_map]
  constructor
  · rintro ⟨old, hold, rfl⟩
    by_cases same : old.place = e.place
    · rw [if_pos same, b.eq_of_place_eq hold he same]
      exact .inl rfl
    · rw [if_neg same]
      exact .inr ⟨hold, same⟩
  · rintro (rfl | ⟨he', apart⟩)
    · exact ⟨e, he, if_pos rfl⟩
    · exact ⟨e', he', if_neg apart⟩

/-- An entry may be replaced by one of the same place and container, and the openings by others, if they
    stay what they were for the other places. -/
theorem modify (b : Balanced home r openings) (he : e ∈ r.entries) {f : Entry → Entry}
    {openings' : List Opening} (keepsPlace : ∀ e, (f e).place = e.place)
    (keepsShared : (f e).shared = e.shared)
    (opens : (f e).opens = openings'.countP fun o => home o.path = e.place)
    (some : 0 < (f e).opens) (aliases : ∀ path ∈ (f e).aliases, home path = e.place)
    (others : ∀ place, place ≠ e.place → (openings'.countP fun o => home o.path = place)
      = openings.countP fun o => home o.path = place)
    (counted : ∀ o ∈ openings',
      home o.path = e.place ∧ o.path ∈ (f e).aliases ∧ e.shared = o.shared
        ∨ home o.path ≠ e.place ∧ o ∈ openings) :
    Balanced home (r.modify e.place f) openings' where
  places_nodup := by
    have places : (r.modify e.place f).entries.map Entry.place = r.entries.map Entry.place := by
      rw [Registry.modify, List.map_map]
      refine List.map_congr_left fun e' _ => ?_
      rw [Function.comp_apply]
      split
      · exact keepsPlace e'
      · rfl
    rw [places]
    exact b.places_nodup
  opens_eq := by
    intro e' he'
    rcases (b.mem_modify he).1 he' with rfl | ⟨held, apart⟩
    · rw [opens, keepsPlace]
    · rw [others _ apart, b.opens_eq e' held]
  opens_pos := by
    intro e' he'
    rcases (b.mem_modify he).1 he' with rfl | ⟨held, -⟩
    · exact some
    · exact b.opens_pos e' held
  aliases_home := by
    intro e' he'
    rcases (b.mem_modify he).1 he' with rfl | ⟨held, -⟩
    · rw [keepsPlace]
      exact aliases
    · exact b.aliases_home e' held
  counted := by
    intro o ho
    rcases counted o ho with ⟨place, named, shared⟩ | ⟨apart, old⟩
    · exact ⟨f e, (b.mem_modify he).2 (.inl rfl), (keepsPlace e).trans place.symm, named,
        keepsShared.trans shared⟩
    · obtain ⟨e', he', place, rest⟩ := b.counted o old
      exact ⟨e', (b.mem_modify he).2 (.inr ⟨he', place.symm ▸ apart⟩), place, rest⟩

/-- Sharing an entry counts one opening more for its place. -/
theorem reopen (b : Balanced home r openings) (he : e ∈ r.entries) (atHome : home path = e.place) :
    Balanced home (r.modify e.place (·.reopen path)) (⟨path, e.shared⟩ :: openings) := by
  refine b.modify he (fun _ => rfl) rfl ?_ (Nat.succ_pos _) ?_ ?_ ?_
  · rw [List.countP_cons_of_pos (by simpa using atHome), ← b.opens_eq e he]
    rfl
  · intro other named
    rcases List.mem_insert_iff.1 named with rfl | old
    · exact atHome
    · exact b.aliases_home e he other old
  · intro place apart
    rw [List.countP_cons_of_neg (by simpa [atHome] using apart.symm)]
  · intro o ho
    rcases List.mem_cons.1 ho with rfl | old
    · exact .inl ⟨atHome, List.mem_insert_self, rfl⟩
    · by_cases same : home o.path = e.place
      · obtain ⟨e', he', place, named, shared⟩ := b.counted o old
        obtain rfl := b.eq_of_place_eq he' he (place.trans same)
        exact .inl ⟨same, List.mem_insert_of_mem named, shared⟩
      · exact .inr ⟨same, old⟩

/-- A new entry counts the one opening of its place. -/
theorem register (b : Balanced home r openings) {place : Place} {shared : Shared}
    (new : r.at? place = none) (atHome : home path = place)
    (added : r'.entries = r.entries ++ [⟨place, shared, 1, [path]⟩]) :
    Balanced home r' (⟨path, shared⟩ :: openings) := by
  have apart : ∀ e ∈ r.entries, e.place ≠ place := by
    intro e he
    simpa using List.find?_eq_none.1 new e he
  have none : ∀ o ∈ openings, home o.path ≠ place := by
    intro o ho same
    obtain ⟨e, he, there, -⟩ := b.counted o ho
    exact apart e he (there.trans same)
  constructor
  · rw [added, List.map_append, List.nodup_append]
    refine ⟨b.places_nodup, List.nodup_singleton _, ?_⟩
    rintro _ old _ new rfl
    obtain ⟨e, he, rfl⟩ := List.mem_map.1 old
    exact apart e he (by simpa using new)
  · intro e he
    rw [added, List.mem_append, List.mem_singleton] at he
    rcases he with he | rfl
    · rw [List.countP_cons_of_neg (by simpa [atHome] using (apart e he).symm), b.opens_eq e he]
    · rw [List.countP_cons_of_pos (by simpa using atHome),
        List.countP_eq_zero.2 (by simpa using none)]
  · intro e he
    rw [added, List.mem_append, List.mem_singleton] at he
    rcases he with he | rfl
    · exact b.opens_pos e he
    · exact Nat.one_pos
  · intro e he
    rw [added, List.mem_append, List.mem_singleton] at he
    rcases he with he | rfl
    · exact b.aliases_home e he
    · intro other named
      rw [List.mem_singleton.1 named]
      exact atHome
  · intro o ho
    rw [added]
    rcases List.mem_cons.1 ho with rfl | old
    · exact ⟨_, List.mem_append_right _ (.head _), atHome.symm, .head _, rfl⟩
    · obtain ⟨e, he, rest⟩ := b.counted o old
      exact ⟨e, List.mem_append_left _ he, rest⟩

theorem countP_eraseP (home : List Component → Place) {o : Opening} (ho : o ∈ openings) (place : Place) :
    (openings.countP fun o => home o.path = place)
      = ((openings.eraseP fun o' => o.path = o'.path).countP fun o => home o.path = place)
        + if home o.path = place then 1 else 0 := by
  obtain ⟨taken, before, after, -, same, parts, rest⟩ :=
    List.exists_of_eraseP (p := fun o' : Opening => o.path = o'.path) ho (by simp)
  have same : o.path = taken.path := of_decide_eq_true same
  rw [rest, parts, List.countP_append, List.countP_append, List.countP_cons, same]
  simp only [decide_eq_true_eq]
  omega

/-- Taking back an opening counts one less for its place, and lets the entry go with the last one. -/
theorem giveBack (b : Balanced home r openings) (he : e ∈ r.entries) {o : Opening}
    (ho : o ∈ openings) (atHome : e.place = home o.path) :
    Balanced home (if 1 < e.opens then r.modify e.place fun e => { e with opens := e.opens - 1 }
      else r.erase e.place) (openings.eraseP fun o' => o.path = o'.path) := by
  have counts := countP_eraseP home ho
  have here := counts e.place
  rw [← b.opens_eq e he, if_pos atHome.symm] at here
  have others : ∀ place, place ≠ e.place →
      ((openings.eraseP fun o' => o.path = o'.path).countP fun o => home o.path = place)
        = openings.countP fun o => home o.path = place := by
    intro place apart
    rw [counts place, if_neg fun same => apart (same.symm.trans atHome.symm), Nat.add_zero]
  split
  · next several =>
    refine b.modify he (fun _ => rfl) rfl ?_ (Nat.sub_pos_of_lt several) (b.aliases_home e he) others ?_
    · rw [here]
      rfl
    · intro o' ho'
      have old := List.mem_of_mem_eraseP ho'
      by_cases same : home o'.path = e.place
      · obtain ⟨e', he', place, named, shared⟩ := b.counted o' old
        obtain rfl := b.eq_of_place_eq he' he (place.trans same)
        exact .inl ⟨same, named, shared⟩
      · exact .inr ⟨same, old⟩
  · next last =>
    have none : ((openings.eraseP fun o' => o.path = o'.path).countP fun o => home o.path = e.place)
        = 0 := by omega
    have mem_erase (e' : Entry) : e' ∈ (r.erase e.place).entries ↔ e' ∈ r.entries ∧ e'.place ≠ e.place := by
      simp [erase]
    constructor
    · exact b.places_nodup.sublist (List.filter_sublist.map _)
    · intro e' he'
      obtain ⟨held, apart⟩ := (mem_erase e').1 he'
      rw [others _ apart, b.opens_eq e' held]
    · intro e' he'
      exact b.opens_pos e' ((mem_erase e').1 he').1
    · intro e' he'
      exact b.aliases_home e' ((mem_erase e').1 he').1
    · intro o' ho'
      obtain ⟨e', held, place, rest⟩ := b.counted o' (List.mem_of_mem_eraseP ho')
      refine ⟨e', (mem_erase e').2 ⟨held, fun same => ?_⟩, place, rest⟩
      exact List.countP_eq_zero.1 none o' ho' (by simpa using place.symm.trans same)

end Balanced

end Registry

namespace Session

variable {home : List Component → Place} {s : Session} {p : Path} {path : List Component}

/-- A path leads nowhere else than to its home. -/
def AtHome (home : List Component → Place) (files : FileSystem) (p : Path) : Prop :=
  ∀ path place, files.spelling? p = some path → files.canonicalize p = .ok place → home path = place

/-- What may happen where each path has a home: no path is released more often than it was opened. -/
def Steady (home : List Component → Place) (s : Session) : Event → Prop
  | .acquire p | .openCount p => AtHome home s.files p
  | .release p => AtHome home s.files p ∧ ∃ o ∈ s.openings, s.files.spelling? p = some o.path
  | .size | .clear | .change _ => True

theorem isOf_eq (spelled : s.files.spelling? p = some path) :
    s.isOf p = fun o => decide (path = o.path) := by
  funext o
  simp only [isOf, spelled, Option.some.injEq]

/-- What a release with an outstanding opening comes to. -/
theorem release_eq (b : s.registry.Balanced home s.openings) {o : Opening} (ho : o ∈ s.openings)
    (spelled : s.files.spelling? p = some o.path) (atHome : AtHome home s.files p) :
    ∃ e ∈ s.registry.entries, s.registry.entryFor s.files p = .ok (some e) ∧ e.place = home o.path
      ∧ e.shared = o.shared
      ∧ (s.step (.release p)).registry.Balanced home (s.step (.release p)).openings := by
  obtain ⟨e, he, meant, place, shared⟩ := b.entryFor_eq ho spelled fun place => atHome _ place spelled
  refine ⟨e, he, meant, place, shared, ?_⟩
  have after := b.giveBack he ho place
  simp only [step, Registry.closeAt_of_entryFor meant, isOf_eq spelled]
  split at after
  · next several => simpa only [if_pos several] using after
  · next last => simpa only [if_neg last] using after

theorem balanced_step (b : s.registry.Balanced home s.openings) {e : Event} (may : s.Steady home e) :
    (s.step e).registry.Balanced home (s.step e).openings := by
  cases e with
  | acquire p =>
    rcases s.registry.openAt_cases s.files p with ⟨_, call⟩ | ⟨place, absolute, found, made, outcome⟩
    · simp only [step, call]
      exact b
    have spelled : s.files.spelling? p = some absolute.components := by
      rw [FileSystem.spelling?, made]
      rfl
    have atHome : home absolute.components = place := may _ _ spelled found
    rcases outcome with ⟨e, held, call⟩ | ⟨new, shared, -, -, call⟩
    · obtain ⟨he, rfl⟩ := Registry.at?_eq_some held
      simp only [step, call, spelled]
      exact b.reopen he atHome
    · simp only [step, call, spelled]
      exact b.register new atHome rfl
  | release p =>
    obtain ⟨atHome, o, ho, spelled⟩ := may
    obtain ⟨-, -, -, -, -, after⟩ := release_eq b ho spelled atHome
    exact after
  | openCount | size => exact b
  | clear => exact .nil home rfl
  | change files => exact b

theorem balanced_of_reaches (reached : Reaches (Steady home) s) :
    s.registry.Balanced home s.openings := by
  induction reached with
  | start order files => exact .nil home rfl
  | step _ may ih => exact balanced_step ih may
  | shuffle _ same ih => exact ih.of_perm same

/-- The places of the entries are those in which opened paths are at home. -/
theorem size_eq (b : s.registry.Balanced home s.openings) :
    s.registry.size = (s.openings.map fun o => home o.path).dedup.length := by
  have places : (s.registry.entries.map Registry.Entry.place).Perm
      (s.openings.map fun o => home o.path).dedup := by
    rw [List.perm_ext_iff_of_nodup b.places_nodup (List.nodup_dedup _)]
    intro place
    rw [List.mem_dedup, List.mem_map, List.mem_map]
    constructor
    · rintro ⟨e, he, rfl⟩
      have some := b.opens_pos e he
      rw [b.opens_eq e he, List.countP_pos_iff] at some
      obtain ⟨o, ho, there⟩ := some
      exact ⟨o, ho, of_decide_eq_true there⟩
    · rintro ⟨o, ho, rfl⟩
      obtain ⟨e, he, there, -⟩ := b.counted o ho
      exact ⟨e, he, there⟩
  rw [← places.length_eq, List.length_map]
  rfl

/-- Whatever becomes of the files, as long as no path leads to two places, and in whatever order entries
    are found: the registry holds one container for each place that has outstanding openings, and none when
    all were taken back. A path that has such openings counts those of its place, all of which were handed
    the same container, and a release lets that container go exactly with the last of them. -/
theorem accounts_of_steady (reached : Reaches (Steady home) s) :
    s.registry.size = (s.openings.map fun o => home o.path).dedup.length
    ∧ (s.openings = [] → s.registry.entries = [])
    ∧ ∀ p, AtHome home s.files p → ∀ o ∈ s.openings, s.files.spelling? p = some o.path →
        s.registry.openCount s.files p = (s.openings.countP fun o' => home o'.path = home o.path)
        ∧ (∀ o' ∈ s.openings, home o'.path = home o.path → o'.shared = o.shared)
        ∧ ∃ last registry, s.registry.release s.files p = .ok (last, registry)
          ∧ (last = true ↔ (s.openings.countP fun o' => home o'.path = home o.path) = 1) := by
  have b := balanced_of_reaches reached
  refine ⟨size_eq b, ?_, ?_⟩
  · intro none
    have size := size_eq b
    rw [none] at size
    exact List.length_eq_zero_iff.1 size
  · intro p atHome o ho spelled
    obtain ⟨e, he, meant, place, shared, -⟩ := release_eq b ho spelled atHome
    have opens := b.opens_eq e he
    rw [place] at opens
    refine ⟨?_, ?_, ?_⟩
    · rw [Registry.openCount_of_entryFor meant, opens]
    · intro o' ho' same
      obtain ⟨e', he', place', -, shared'⟩ := b.counted o' ho'
      rw [← shared, ← shared', b.eq_of_place_eq he' he (place'.trans (same.trans place.symm))]
    · have released := Registry.release_of_entryFor meant
      rw [← opens]
      by_cases several : 1 < e.opens
      · rw [if_pos several] at released
        have more : e.opens ≠ 1 := by omega
        exact ⟨_, _, released, by simp [more]⟩
      · rw [if_neg several] at released
        have some := b.opens_pos e he
        have last : e.opens = 1 := by omega
        exact ⟨_, _, released, by simp [last]⟩

/-- A container `a` and a link `l` to it. -/
def linked : FileSystem where
  root := .directory [(utf8 "a", .file 0), (utf8 "l", .link ⟨utf8 "a"⟩)]
  contents := #[.ofBytes Archive.small]

/-- The link without the container. -/
def dangling : FileSystem where
  root := .directory [(utf8 "l", .link ⟨utf8 "a"⟩)]
  contents := #[.ofBytes Archive.small]

/-- The container is opened under both names, and then its file is removed. -/
def vanished : Session :=
  let s : Session := { registry := {}, files := linked }
  ((s.step (.acquire ⟨utf8 "l"⟩)).step (.acquire ⟨utf8 "/a"⟩)).step (.change dangling)

theorem accounts_of_steady_vanished :
    vanished.registry.size = 1 ∧ vanished.registry.openCount vanished.files ⟨utf8 "l"⟩ = 2
      ∧ ∃ registry, vanished.registry.release vanished.files ⟨utf8 "/a"⟩ = .ok (false, registry) := by
  have reached : Reaches (Steady fun _ => [utf8 "a"]) vanished := by
    have changed : ∀ s files, Steady (fun _ => [utf8 "a"]) s (.change files) := fun _ _ => trivial
    refine .step (.step (.step (.start .little linked) ?_) ?_) (changed _ _)
    · intro path place _ found
      exact Except.ok.inj found
    · intro path place _ found
      exact Except.ok.inj found
  obtain ⟨size, -, paths⟩ := accounts_of_steady reached
  have lost (p : Path) (gone : vanished.files.canonicalize p = .error .noSuchFile) :
      AtHome (fun _ => [utf8 "a"]) vanished.files p := by
    intro path place _ found
    rw [gone] at found
    cases found
  obtain ⟨count, -, -⟩ := paths ⟨utf8 "l"⟩ (lost _ rfl) _ (.tail _ (.head _)) rfl
  obtain ⟨-, -, last, registry, released, only⟩ :=
    paths ⟨utf8 "/a"⟩ (lost _ rfl) _ (.head _) rfl
  refine ⟨size, count, registry, ?_⟩
  rcases last
  · exact released
  · cases only.1 rfl

end Session

end ResourceArchive
