import Mathlib.Data.Fintype.Basic
import Mathlib.Data.List.FinRange
import ResourceArchive.Proofs.Index.Greedy

/-! What an assignment does not depend on. Only which names share a bucket counts, so with the names in
    another order the redirects are the same and the slots go with the names. The bound on the seeds
    decides whether there is an assignment, and has no part in what it is. -/

namespace ResourceArchive.Assignment

variable {names names' : List Bytes} {size : Nat} {maxSeed : Int32} {a : Assignment}
  {seeding done : Seeding}

/-! ### The order of the names -/

/-- The names in another order: at place `i` stands the one from place `σ i`. -/
def permuted (names : List Bytes) (σ : Equiv.Perm (Fin names.length)) : List Bytes :=
  List.ofFn fun i => names[σ i]

theorem permuted_perm (names : List Bytes) (σ : Equiv.Perm (Fin names.length)) :
    (permuted names σ).Perm names := by
  have whole : List.ofFn (fun i : Fin names.length => names[i]) = names := List.ofFn_getElem
  exact (σ.ofFn_comp_perm fun i => names[i]).trans (.of_eq whole)

theorem getElem?_permuted {σ : Equiv.Perm (Fin names.length)} (i : Fin names.length) :
    (permuted names σ)[i.val]? = some names[σ i] := by
  rw [permuted, List.getElem?_ofFn, dif_pos i.isLt]

section Perm

variable (same : names.Perm names')
include same

theorem namesIn_perm (size b : Nat) : (namesIn names size b).Perm (namesIn names' size b) :=
  same.filter _

theorem before_perm {b c : Nat} : Before names size b c ↔ Before names' size b c := by
  rw [Before, Before, (namesIn_perm same size b).length_eq, (namesIn_perm same size c).length_eq]

theorem order_perm : order names size = order names' size := by
  have ordered := isOrder_order names size
  refine IsOrder.eq ⟨fun b => ?_, ?_⟩ (isOrder_order names' size)
  · rw [ordered.mem_iff, (namesIn_perm same size b).length_eq]
  · exact ordered.sorted.imp (before_perm same).1

theorem spread_perm (size b seed : Nat) : (spread names size b seed).Perm (spread names' size b seed) :=
  (namesIn_perm same size b).map _

theorem mem_seededSlots_perm {slot : Nat} :
    slot ∈ seededSlots names size done ↔ slot ∈ seededSlots names' size done :=
  (List.Perm.flatMap_left done fun g _ => spread_perm same size g.1 g.2).mem_iff

/-- Whether a seed resolves a bucket is a question about its slots in any order. -/
theorem admits_perm {maxSeed : Int} {b seed : Nat} :
    Admits names size maxSeed done b seed → Admits names' size maxSeed done b seed := by
  intro admitted
  have slots := spread_perm same size b seed
  refine ⟨admitted.positive, admitted.tried, slots.nodup_iff.1 admitted.distinct, ?_⟩
  intro slot hs
  rw [← mem_seededSlots_perm same]
  exact admitted.free slot (slots.mem_iff.2 hs)

theorem admits_perm_iff {maxSeed : Int} {b seed : Nat} :
    Admits names size maxSeed done b seed ↔ Admits names' size maxSeed done b seed :=
  ⟨admits_perm same, admits_perm same.symm⟩

theorem isGreedy_perm {maxSeed : Int} :
    IsGreedy names size maxSeed done seeding ↔ IsGreedy names' size maxSeed done seeding := by
  induction seeding generalizing done with
  | nil => rfl
  | cons g rest ih => simp only [IsGreedy, admits_perm_iff same, ih]

theorem stuck_perm {maxSeed : Int} {order : List Nat} {b : Nat} :
    Stuck names size maxSeed order seeding b → Stuck names' size maxSeed order seeding b := by
  rintro ⟨next, greedy, none⟩
  exact ⟨next, (isGreedy_perm same).1 greedy, fun k => mt (admits_perm_iff same).2 (none k)⟩

theorem lone_perm : lone names size = lone names' size := by
  simp only [lone, (namesIn_perm same size _).length_eq]

theorem free_perm : free names size seeding = free names' size seeding := by
  simp only [free, mem_seededSlots_perm same]

theorem build_error_perm {e : Error} (h : build names size maxSeed = .error e) :
    build names' size maxSeed = .error e := by
  rw [build_eq_error] at h ⊢
  rw [← same.length_eq, ← order_perm same]
  split_ifs at h ⊢
  · exact h
  · exact h
  · obtain ⟨seeding, b, stuck, rfl⟩ := h
    exact ⟨seeding, b, stuck_perm same stuck, by rw [(namesIn_perm same size b).length_eq]⟩

/-- Buckets lead to the same slots and have the same seeds. -/
theorem Completed.redirect_perm {a' : Assignment} (h : Completed names size seeding a)
    (h' : Completed names' size seeding a') (room : names.length ≤ size)
    (follows : seeding.map (·.1) = order names size) (b : Nat) : a'.redirect b = a.redirect b := by
  obtain ⟨none, leads⟩ | ⟨-, single, -⟩ | ⟨-, seed, hg, leads⟩ := h.redirect_cases room follows b
  · rw [leads, h'.empty b (List.perm_nil.1 (none ▸ (namesIn_perm same size b).symm))]
  · have settled := h'.settled
    rw [← lone_perm same, ← free_perm same, ← h.settled] at settled
    exact List.map_inj_left.1 settled b single
  · rw [leads, h'.seeded _ hg]

end Perm

/-- The order of the names has no part in the redirects, or in the failure; a name has the slot that it
    has in any other order. -/
theorem build_permuted (names : List Bytes) (σ : Equiv.Perm (Fin names.length)) (size : Nat)
    (maxSeed : Int32) :
    (∀ e, build (permuted names σ) size maxSeed = .error e ↔ build names size maxSeed = .error e)
    ∧ ∀ a, build names size maxSeed = .ok a → ∃ a', build (permuted names σ) size maxSeed = .ok a'
      ∧ a'.size = a.size ∧ (∀ b, a'.redirect b = a.redirect b)
      ∧ a.slots.size = names.length ∧ a'.slots.size = names.length
      ∧ ∀ i, ∃ slot, a.slots[(σ i).val]? = some slot ∧ a'.slots[i.val]? = some slot := by
  have same := (permuted_perm names σ).symm
  refine ⟨fun e => ⟨build_error_perm same.symm, build_error_perm same⟩, ?_⟩
  intro a h
  obtain ⟨room, few, seeding, follows, greedy, rfl⟩ := build_eq_ok.1 h
  have follows' := follows.trans (order_perm same)
  have h' := build_of_isGreedy (same.length_eq ▸ room) few follows' ((isGreedy_perm same).1 greedy)
  have completed := completed_ofSeeding follows h
  have completed' := completed_ofSeeding follows' h'
  have redirects := completed.redirect_perm same completed' room follows
  refine ⟨_, h', completed'.size_eq.trans completed.size_eq.symm, redirects, completed.size_slots,
    completed'.size_slots.trans same.length_eq.symm, ?_⟩
  intro i
  obtain ⟨slot, given, leads⟩ := completed.given (σ i).val names[σ i] (List.getElem?_eq_getElem _)
  obtain ⟨slot', given', leads'⟩ := completed'.given i.val names[σ i] (getElem?_permuted i)
  rw [redirects, leads] at leads'
  exact ⟨slot, given, given'.trans leads'.symm⟩

/-- The last letter ahead of the others and the first behind them. -/
theorem build_permuted_sixLetters :
    ∃ a a', build sixLetters 6 100 = .ok a
      ∧ build [[0x66], [0x62], [0x63], [0x64], [0x65], [0x61]] 6 100 = .ok a'
      ∧ (∀ b, a'.redirect b = a.redirect b)
      ∧ ∃ slot, a.slots[5]? = some slot ∧ a'.slots[0]? = some slot := by
  obtain ⟨a, h⟩ : ∃ a, build sixLetters 6 100 = .ok a := eq_ok_of_isOk (by decide)
  let σ : Equiv.Perm (Fin sixLetters.length) := Equiv.swap ⟨0, by decide⟩ ⟨5, by decide⟩
  obtain ⟨a', h', -, redirects, -, -, slots⟩ := (build_permuted sixLetters σ 6 100).2 a h
  have listed : permuted sixLetters σ = [[0x66], [0x62], [0x63], [0x64], [0x65], [0x61]] := by decide
  exact ⟨a, a', h, listed ▸ h', redirects, slots ⟨0, by decide⟩⟩

/-! ### The bound on the seeds -/

section Bound

variable {s t : Int} {b seed : Nat}

theorem Admits.of_le (h : Admits names size s done b seed) (tried : seed ≤ t) :
    Admits names size t done b seed :=
  ⟨h.positive, tried, h.distinct, h.free⟩

/-- No bound admits a seed below the least one. -/
theorem le_of_admits (least : IsLeast {k | Admits names size s done b k} seed) {k : Nat}
    (admitted : Admits names size t done b k) : seed ≤ k := by
  by_contra below
  have tried := least.1.tried
  exact below (least.2 (admitted.of_le (by omega)))

theorem isLeast_of_le (least : IsLeast {k | Admits names size s done b k} seed) (tried : seed ≤ t) :
    IsLeast {k | Admits names size t done b k} seed :=
  ⟨least.1.of_le tried, fun _ admitted => le_of_admits least admitted⟩

theorem not_admits_of_lt (least : IsLeast {k | Admits names size s done b k} seed) (beyond : t < seed)
    (k : Nat) : ¬Admits names size t done b k := by
  intro admitted
  have high := le_of_admits least admitted
  have tried := admitted.tried
  omega

theorem IsGreedy.of_le (greedy : IsGreedy names size s done seeding) (tried : ∀ g ∈ seeding, g.2 ≤ t) :
    IsGreedy names size t done seeding := by
  induction seeding generalizing done with
  | nil => trivial
  | cons g rest ih =>
    rw [List.forall_mem_cons] at tried
    exact ⟨isLeast_of_le greedy.1 tried.1, ih greedy.2 tried.2⟩

/-- Under a lower bound the first bucket whose seed is above it gets stuck. -/
theorem IsGreedy.stuck {front back : Seeding}
    (greedy : IsGreedy names size s [] (front ++ (b, seed) :: back)) (tried : ∀ g ∈ front, g.2 ≤ t)
    (beyond : t < seed) :
    Stuck names size t ((front ++ (b, seed) :: back).map (·.1)) front b := by
  obtain ⟨before, least, -⟩ := isGreedy_append.1 greedy
  exact ⟨⟨back.map (·.1), by simp⟩, before.of_le tried, not_admits_of_lt least beyond⟩

theorem exists_greatest (seeding : Seeding) :
    ∃ m, IsGreatest (insert 0 {k | ∃ g ∈ seeding, g.2 = k}) m := by
  induction seeding with
  | nil => exact ⟨0, by simp⟩
  | cons g rest ih =>
    obtain ⟨m, greatest⟩ := ih
    refine ⟨max g.2 m, ?_⟩
    have more : insert 0 {k | ∃ f ∈ g :: rest, f.2 = k}
        = insert g.2 (insert 0 {k | ∃ f ∈ rest, f.2 = k}) := by
      ext k
      simp only [Set.mem_insert_iff, Set.mem_ofPred_eq, List.mem_cons, exists_eq_or_imp]
      grind
    exact more ▸ greatest.insert g.2

end Bound

/-- A bucket that leads on by a seed is one of those that were given one. -/
theorem Completed.mem_seeding (h : Completed names size seeding a) (room : names.length ≤ size)
    (follows : seeding.map (·.1) = order names size) {b seed : Nat}
    (leads : a.redirect b = .seeded seed) : (b, seed) ∈ seeding := by
  obtain ⟨-, other⟩ | ⟨-, -, slot, other⟩ | ⟨-, k, hg, other⟩ := h.redirect_cases room follows b
  · cases leads.symm.trans other
  · cases leads.symm.trans other
  · cases leads.symm.trans other
    exact hg

/-- The greatest value of the redirects is the highest seed. -/
theorem Completed.isGreatest (h : Completed names size seeding a) (room : names.length ≤ size)
    (follows : seeding.map (·.1) = order names size) {m : Nat}
    (greatest : IsGreatest (insert 0 {k | ∃ g ∈ seeding, g.2 = k}) m) :
    IsGreatest (insert 0 (Set.range fun b => (a.redirect b).toInt)) (m : Int) := by
  constructor
  · obtain rfl | ⟨g, hg, rfl⟩ := greatest.1
    · exact .inl rfl
    · exact .inr ⟨g.1, congrArg Redirect.toInt (h.seeded g hg)⟩
  · rintro v (rfl | ⟨b, rfl⟩)
    · exact Int.natCast_nonneg m
    · show (a.redirect b).toInt ≤ m
      rcases leads : a.redirect b with _ | slot | seed
      · exact Int.natCast_nonneg m
      · rw [Redirect.toInt]
        omega
      · have high := greatest.2 (.inr ⟨_, h.mem_seeding room follows leads, rfl⟩)
        exact Int.ofNat_le.2 high

/-- The bound on the seeds is a threshold. From the highest seed on, any bound gives the same assignment,
    and so does any bound at all where no bucket needs a seed. Below it the failure is that of the first
    bucket whose seed is above the bound. -/
theorem build_threshold (h : build names size maxSeed = .ok a) :
    ∃ m, IsGreatest (insert 0 (Set.range fun b => (a.redirect b).toInt)) m
      ∧ (∀ t : Int32, m ≤ t.toInt ∨ m = 0 → build names size t = .ok a)
      ∧ ∀ t : Int32, t.toInt < m → m ≠ 0 → ∃ b seed, a.redirect b = .seeded seed ∧ t.toInt < seed
        ∧ (∀ c k, a.redirect c = .seeded k → t.toInt < k → c = b ∨ Before names size b c)
        ∧ build names size t = .error (.noSeed b (namesIn names size b).length) := by
  obtain ⟨room, few, seeding, follows, greedy, rfl⟩ := build_eq_ok.1 h
  have completed := completed_ofSeeding follows h
  obtain ⟨m, greatest⟩ := exists_greatest seeding
  refine ⟨m, completed.isGreatest room follows greatest, ?_, ?_⟩
  · intro t bound
    refine build_of_isGreedy room few follows (greedy.of_le fun g hg => ?_)
    have high : g.2 ≤ m := greatest.2 (.inr ⟨g, hg, rfl⟩)
    have positive := greedy.positive g hg
    omega
  · intro t low some
    -- The first seed above the bound, and the buckets that have theirs before it.
    have above : (seeding.find? fun g => t.toInt < g.2).isSome := by
      obtain none | ⟨g, hg, rfl⟩ := greatest.1
      · exact absurd (congrArg Nat.cast none) some
      · exact List.find?_isSome.2 ⟨g, hg, by simpa using low⟩
    obtain ⟨⟨b, seed⟩, first⟩ := Option.isSome_iff_exists.1 above
    obtain ⟨beyond, front, back, rfl, before⟩ := List.find?_eq_some_iff_append.1 first
    have beyond : t.toInt < seed := of_decide_eq_true beyond
    have tried : ∀ g ∈ front, (g.2 : Int) ≤ t.toInt := fun g hg => by simpa using before g hg
    have stuck := greedy.stuck tried beyond
    rw [follows] at stuck
    have given : (b, seed) ∈ front ++ (b, seed) :: back := List.mem_append_right _ (.head _)
    refine ⟨b, seed, completed.seeded _ given, beyond, ?_, build_of_stuck room few stuck⟩
    intro c k leads late
    have sorted := (isOrder_order names size).sorted
    rw [← follows, List.pairwise_map, List.pairwise_append, List.pairwise_cons] at sorted
    have listed := completed.mem_seeding room follows leads
    rw [List.mem_append, List.mem_cons] at listed
    obtain earlier | same | later := listed
    · exact absurd (tried _ earlier) (Int.not_le_of_gt late)
    · exact .inl (congrArg Prod.fst same)
    · exact .inr (sorted.2.1.1 _ later)

theorem build_threshold_sixLetters :
    ∃ a, build sixLetters 6 100 = .ok a
      ∧ IsGreatest (insert 0 (Set.range fun b => (a.redirect b).toInt)) 2
      ∧ build sixLetters 6 2 = .ok a
      ∧ ∃ b seed, a.redirect b = .seeded seed ∧ 1 < (seed : Int)
        ∧ build sixLetters 6 1 = .error (.noSeed b (namesIn sixLetters 6 b).length) := by
  obtain ⟨a, h⟩ : ∃ a, build sixLetters 6 100 = .ok a := eq_ok_of_isOk (by decide)
  obtain ⟨m, greatest, high, low⟩ := build_threshold h
  have one : ¬(build sixLetters 6 1).isOk := by decide
  have two : (build sixLetters 6 2).isOk := by decide
  have above : ¬(m ≤ 1 ∨ m = 0) := fun bound => one (by rw [high 1 bound]; rfl)
  have below : ¬2 < m := fun bound => by
    obtain ⟨b, seed, -, -, -, failure⟩ := low 2 bound (by omega)
    rw [failure] at two
    cases two
  obtain rfl : m = 2 := by omega
  obtain ⟨b, seed, leads, beyond, -, failure⟩ := low 1 (by decide) (by decide)
  exact ⟨a, h, greatest, high 2 (by decide), b, seed, leads, beyond, failure⟩

/-- A name that is alone in its bucket needs no seed, so it has its slot under a negative bound as well. -/
theorem build_of_one_name :
    ∃ a, build [[0x61]] 1 100 = .ok a
      ∧ IsGreatest (insert 0 (Set.range fun b => (a.redirect b).toInt)) 0
      ∧ (-1 : Int32).toInt < 0 ∧ build [[0x61]] 1 (-1) = .ok a := by
  obtain ⟨a, h⟩ : ∃ a, build [[0x61]] 1 100 = .ok a := eq_ok_of_isOk (by decide)
  obtain ⟨room, few, seeding, follows, greedy, rfl⟩ := build_eq_ok.1 h
  obtain rfl : seeding = [] := by
    rw [← List.map_eq_nil_iff (f := (·.1)), follows]
    decide
  refine ⟨_, h, ?_, by decide, build_of_isGreedy room few follows trivial⟩
  exact (completed_ofSeeding follows h).isGreatest room follows (by simp)

end ResourceArchive.Assignment
