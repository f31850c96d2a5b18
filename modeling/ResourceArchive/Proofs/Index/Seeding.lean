import Mathlib.Data.List.Induction
import Mathlib.Data.List.Sort
import Mathlib.Order.Bounds.Basic
import ResourceArchive.Proofs.Index.Placement

/-! Which seeds the crowded buckets get. They are taken in their order, and each is given the least seed
    that sends its names to different slots, none of which an earlier bucket has. `IsGreedy` says so
    without the tables; placing the groups succeeds with just those seeds, and fails at the first bucket
    for which there is none. -/

namespace ResourceArchive.Assignment

variable {names : List Bytes} {size : Nat} {maxSeed : Int}

/-! ### Order -/

/-- A bucket is seeded before another one if it has more names, or as many and a lesser number. -/
def Before (names : List Bytes) (size b c : Nat) : Prop :=
  (namesIn names size c).length < (namesIn names size b).length
    ∨ (namesIn names size b).length = (namesIn names size c).length ∧ b < c

/-- The buckets with several names, in the order in which they are seeded. -/
structure IsOrder (names : List Bytes) (size : Nat) (order : List Nat) : Prop where
  mem_iff : ∀ b, b ∈ order ↔ 1 < (namesIn names size b).length
  sorted : order.Pairwise (Before names size)

theorem Before.asymm {b c : Nat} (h : Before names size b c) : ¬Before names size c b := by
  unfold Before at *
  omega

theorem IsOrder.nodup {order : List Nat} (h : IsOrder names size order) : order.Nodup := by
  refine h.sorted.imp ?_
  rintro b _ before rfl
  exact before.asymm before

theorem IsOrder.eq {order order' : List Nat} (h : IsOrder names size order)
    (h' : IsOrder names size order') : order = order' := by
  have _ : Std.Irrefl (Before names size) := ⟨fun _ before => before.asymm before⟩
  have _ : Std.Antisymm (Before names size) := ⟨fun _ _ before after => absurd after before.asymm⟩
  exact h.sorted.eq_of_mem_iff h'.sorted fun b => (h.mem_iff b).trans (h'.mem_iff b).symm

theorem eq_inBucket_of_mem_groups {g : Nat × List Entry} (h : g ∈ groups (buckets names size)) :
    g.2 = inBucket names size g.1 :=
  (getElem?_buckets.1 (mem_groups.1 h).1).1

/-- The buckets of the groups, as they are listed. -/
def order (names : List Bytes) (size : Nat) : List Nat :=
  (groups (buckets names size)).map (·.1)

theorem isOrder_order (names : List Bytes) (size : Nat) : IsOrder names size (order names size) where
  mem_iff b := by
    rw [order, List.mem_map, ← inBucket_length]
    constructor
    · rintro ⟨g, hg, rfl⟩
      rw [← eq_inBucket_of_mem_groups hg]
      exact (mem_groups.1 hg).2
    · intro several
      have some : inBucket names size b ≠ [] := List.ne_nil_of_length_pos (by omega)
      exact ⟨(b, inBucket names size b), mem_groups.2 ⟨getElem?_buckets.2 ⟨rfl, some⟩, several⟩, rfl⟩
  sorted := by
    rw [order, List.pairwise_map]
    refine (groups_ordered _).imp_of_mem ?_
    intro b c hb hc before
    rwa [eq_inBucket_of_mem_groups hb, eq_inBucket_of_mem_groups hc, inBucket_length,
      inBucket_length] at before

theorem groups_eq_map_order (names : List Bytes) (size : Nat) :
    groups (buckets names size) = (order names size).map fun b => (b, inBucket names size b) := by
  rw [order, List.map_map]
  refine (List.map_id _).symm.trans (List.map_congr_left fun g hg => ?_)
  exact Prod.ext rfl (eq_inBucket_of_mem_groups hg)

/-! ### Seeds -/

/-- Buckets with their seeds, in the order in which they were given them. -/
abbrev Seeding := List (Nat × Nat)

/-- The slots to which a seed sends the names of a bucket. -/
def spread (names : List Bytes) (size bucket seed : Nat) : List Nat :=
  (namesIn names size bucket).map (Hash.slot · (.ofNat seed) size)

/-- The slots that are given out with seeds. -/
def seededSlots (names : List Bytes) (size : Nat) (done : Seeding) : List Nat :=
  done.flatMap fun (bucket, seed) => spread names size bucket seed

/-- A seed that a bucket may be given after others. -/
structure Admits (names : List Bytes) (size : Nat) (maxSeed : Int) (done : Seeding)
    (bucket seed : Nat) : Prop where
  positive : 1 ≤ seed
  tried : seed ≤ maxSeed
  distinct : (spread names size bucket seed).Nodup
  free : ∀ slot ∈ spread names size bucket seed, slot ∉ seededSlots names size done

/-- After `done`, each bucket has the least seed that it may be given after those before it. -/
def IsGreedy (names : List Bytes) (size : Nat) (maxSeed : Int) (done : Seeding) : Seeding → Prop
  | [] => True
  | (bucket, seed) :: rest =>
    IsLeast {k | Admits names size maxSeed done bucket k} seed
      ∧ IsGreedy names size maxSeed (done ++ [(bucket, seed)]) rest

namespace Progress

variable {done : Seeding} {p q : Progress} {b seed : Nat} {e : Error}

/-- What has been done when the crowded buckets are being seeded. -/
structure Seeded (names : List Bytes) (size : Nat) (done : Seeding) (p : Progress) : Prop where
  size_eq : p.size = size
  directed : ∀ g ∈ done, p.redirect g.1 = .seeded g.2
  undirected : ∀ b, b ∉ done.map (·.1) → p.redirect b = .empty
  taken : ∀ slot, slot ∈ p.taken ↔ slot ∈ seededSlots names size done

/-- Gives the names of a bucket the slots to which a seed sends them. -/
def seat (names : List Bytes) (size : Nat) (p : Progress) (g : Nat × Nat) : Progress :=
  (inBucket names size g.1).foldl (fun p e => p.give e.1 (Hash.slot e.2 (.ofNat g.2) size))
    (p.direct g.1 (.seeded g.2))

theorem redirect_giveAll (p : Progress) (target : Entry → Nat) (group : List Entry) (c : Nat) :
    (group.foldl (fun p e => p.give e.1 (target e)) p).redirect c = p.redirect c := by
  induction group generalizing p with
  | nil => rfl
  | cons e rest ih => exact ih _

theorem size_giveAll (p : Progress) (target : Entry → Nat) (group : List Entry) :
    (group.foldl (fun p e => p.give e.1 (target e)) p).size = p.size := by
  induction group generalizing p with
  | nil => rfl
  | cons e rest ih => exact ih _

theorem mem_taken_giveAll (p : Progress) (target : Entry → Nat) (group : List Entry) (slot : Nat) :
    slot ∈ (group.foldl (fun p e => p.give e.1 (target e)) p).taken
      ↔ slot ∈ p.taken ∨ slot ∈ group.map target := by
  induction group generalizing p with
  | nil => simp
  | cons e rest ih =>
    rw [List.foldl_cons, ih, give, Std.TreeSet.mem_insert, Nat.compare_eq_eq, List.map_cons,
      List.mem_cons]
    grind

theorem map_slot_inBucket (names : List Bytes) (size bucket seed : Nat) :
    (inBucket names size bucket).map (Hash.slot ·.2 (.ofNat seed) size)
      = spread names size bucket seed := by
  rw [spread, ← map_inBucket, List.map_map]
  rfl

theorem Seeded.seat (h : p.Seeded names size done) (g : Nat × Nat) (new : g.1 ∉ done.map (·.1)) :
    (p.seat names size g).Seeded names size (done ++ [g]) where
  size_eq := (size_giveAll ..).trans h.size_eq
  directed f hf := by
    rw [Progress.seat, redirect_giveAll, redirect_direct]
    rcases List.mem_append.1 hf with earlier | last
    · have other : g.1 ≠ f.1 := fun same => new (same ▸ List.mem_map_of_mem earlier)
      rw [if_neg other, h.directed f earlier]
    · rw [List.mem_singleton.1 last, if_pos rfl]
  undirected c hc := by
    rw [List.map_append, List.mem_append, not_or, List.map_singleton, List.mem_singleton] at hc
    rw [Progress.seat, redirect_giveAll, redirect_direct, if_neg (Ne.symm hc.2), h.undirected c hc.1]
  taken slot := by
    rw [Progress.seat, mem_taken_giveAll, map_slot_inBucket, seededSlots, List.flatMap_append,
      List.mem_append, List.flatMap_singleton]
    exact or_congr_left (h.taken slot)

/-! ### One bucket -/

/-- A seed that resolves a group is found if it is among those that are tried, and the first such is. -/
theorem leastSeed?_eq_none {group : List Entry} {count first : Nat}
    (h : p.leastSeed? group count first = none) {k : Nat} (low : first ≤ k) (high : k < first + count) :
    p.claim? (.ofNat k) [] group = none := by
  induction count generalizing first with
  | zero => omega
  | succ count ih =>
    rw [leastSeed?] at h
    split at h
    · cases h
    · next refused =>
      rcases Nat.eq_or_lt_of_le low with rfl | low
      · exact refused
      · exact ih h low (by omega)

theorem Seeded.claim?_eq_some (h : p.Seeded names size done) {slots : List Nat} :
    p.claim? (.ofNat seed) [] (inBucket names size b) = some slots
      ↔ slots = spread names size b seed ∧ (spread names size b seed).Nodup
        ∧ ∀ slot ∈ spread names size b seed, slot ∉ seededSlots names size done := by
  rw [Progress.claim?_eq_some, h.size_eq, ← map_slot_inBucket]
  simp only [List.reverse_nil, List.nil_append, List.not_mem_nil, not_false_eq_true, true_and,
    List.forall_mem_map, ← h.taken, and_comm]

/-- The seeds that a bucket may be given are those that resolve it, among those that are tried. -/
theorem Seeded.admits_iff (h : p.Seeded names size done) : Admits names size maxSeed done b seed
    ↔ 1 ≤ seed ∧ seed ≤ maxSeed
      ∧ p.claim? (.ofNat seed) [] (inBucket names size b) = some (spread names size b seed) := by
  rw [h.claim?_eq_some]
  exact ⟨fun a => ⟨a.positive, a.tried, rfl, a.distinct, a.free⟩,
    fun ⟨positive, tried, _, distinct, free⟩ => ⟨positive, tried, distinct, free⟩⟩

theorem Seeded.placeGroup_cases (h : p.Seeded names size done) (maxSeed : Int) (b : Nat) :
    (∃ seed, IsLeast {k | Admits names size maxSeed done b k} seed
      ∧ p.placeGroup maxSeed.toNat (b, inBucket names size b) = .ok (p.seat names size (b, seed)))
    ∨ (∀ k, ¬Admits names size maxSeed done b k)
      ∧ p.placeGroup maxSeed.toNat (b, inBucket names size b)
        = .error (.noSeed b (namesIn names size b).length) := by
  rw [Progress.placeGroup]
  split
  · next none =>
    refine .inr ⟨?_, by rw [inBucket_length]⟩
    intro k admitted
    obtain ⟨positive, tried, accepted⟩ := h.admits_iff.1 admitted
    -- No seed is tried where a name comes twice, and none could be accepted.
    split at none
    · next twice =>
      rw [p.claim?_eq_none_of_repeatsName _ _ _ twice] at accepted
      cases accepted
    · rw [leastSeed?_eq_none none positive (by omega)] at accepted
      cases accepted
  · next seed slots chosen =>
    split at chosen
    · cases chosen
    · obtain ⟨low, high, accepted, least⟩ := leastSeed?_eq_some chosen
      obtain ⟨rfl, distinct, free⟩ := h.claim?_eq_some.1 accepted
      refine .inl ⟨seed, ⟨⟨low, by omega, distinct, free⟩, ?_⟩, ?_⟩
      · intro k admitted
        obtain ⟨positive, -, accepted⟩ := h.admits_iff.1 admitted
        refine Nat.le_of_not_lt fun less => ?_
        rw [least k positive less] at accepted
        cases accepted
      · rw [Progress.seat, ← map_slot_inBucket, ← List.map_prod_left_eq_zip, List.foldl_map]

/-- The least seed for a bucket is the one that it is given. -/
theorem Seeded.placeGroup_of_isLeast (h : p.Seeded names size done)
    (least : IsLeast {k | Admits names size maxSeed done b k} seed) :
    p.placeGroup maxSeed.toNat (b, inBucket names size b) = .ok (p.seat names size (b, seed)) := by
  obtain ⟨seed', least', placed⟩ | ⟨none, -⟩ := h.placeGroup_cases maxSeed b
  · rw [least.unique least', placed]
  · exact absurd least.1 (none seed)

theorem Seeded.placeGroup_of_none (h : p.Seeded names size done)
    (none : ∀ k, ¬Admits names size maxSeed done b k) :
    p.placeGroup maxSeed.toNat (b, inBucket names size b)
      = .error (.noSeed b (namesIn names size b).length) := by
  obtain ⟨seed, least, -⟩ | ⟨-, refused⟩ := h.placeGroup_cases maxSeed b
  · exact absurd least.1 (none seed)
  · exact refused

/-! ### All buckets -/

theorem Seeded.foldl_seat (seeding : Seeding) (h : p.Seeded names size done)
    (new : (done.map (·.1) ++ seeding.map (·.1)).Nodup) :
    (seeding.foldl (Progress.seat names size) p).Seeded names size (done ++ seeding) := by
  induction seeding generalizing p done with
  | nil => simpa using h
  | cons g rest ih =>
    have fresh : g.1 ∉ done.map (·.1) := fun old =>
      List.disjoint_of_nodup_append new old (.head _)
    have later := ih (h.seat g fresh) (by simpa using new)
    simpa using later

/-- Placing the groups of buckets gives each the seed that it is due. -/
theorem Seeded.placeGroups_of_isGreedy (seeding : Seeding) (h : p.Seeded names size done)
    (new : (done.map (·.1) ++ seeding.map (·.1)).Nodup)
    (greedy : IsGreedy names size maxSeed done seeding) :
    ((seeding.map (·.1)).map fun b => (b, inBucket names size b)).foldlM
        (Progress.placeGroup maxSeed.toNat) p
      = .ok (seeding.foldl (Progress.seat names size) p) := by
  induction seeding generalizing p done with
  | nil => rfl
  | cons g rest ih =>
    obtain ⟨least, greedy⟩ := greedy
    have fresh : g.1 ∉ done.map (·.1) := fun old =>
      List.disjoint_of_nodup_append new old (.head _)
    rw [List.map_cons, List.map_cons, List.foldlM_cons, h.placeGroup_of_isLeast least, ok_bind]
    exact ih (h.seat g fresh) (by simpa using new) greedy

end Progress

/-- A bucket that has no seed, after the ones before it have theirs. -/
structure Stuck (names : List Bytes) (size : Nat) (maxSeed : Int) (order : List Nat)
    (seeding : Seeding) (bucket : Nat) : Prop where
  next : seeding.map (·.1) ++ [bucket] <+: order
  greedy : IsGreedy names size maxSeed [] seeding
  none : ∀ k, ¬Admits names size maxSeed seeding bucket k

theorem isGreedy_append {done front back : Seeding} :
    IsGreedy names size maxSeed done (front ++ back)
      ↔ IsGreedy names size maxSeed done front ∧ IsGreedy names size maxSeed (done ++ front) back := by
  induction front generalizing done with
  | nil => simp [IsGreedy]
  | cons g rest ih => simp [IsGreedy, ih, and_assoc]

theorem IsGreedy.positive {done seeding : Seeding}
    (h : IsGreedy names size maxSeed done seeding) : ∀ g ∈ seeding, 1 ≤ g.2 := by
  induction seeding generalizing done with
  | nil => simp
  | cons first rest ih =>
    rw [List.forall_mem_cons]
    exact ⟨h.1.1.positive, ih h.2⟩

/-- Buckets are all given seeds, or one of them is the first for which there is none. -/
theorem exists_isGreedy_or_stuck (names : List Bytes) (size : Nat) (maxSeed : Int)
    (order : List Nat) :
    (∃ seeding, seeding.map (·.1) = order ∧ IsGreedy names size maxSeed [] seeding)
      ∨ ∃ seeding b, Stuck names size maxSeed order seeding b := by
  induction order using List.reverseRecOn with
  | nil => exact .inl ⟨[], rfl, trivial⟩
  | append_singleton front b ih =>
    rcases ih with ⟨seeding, rfl, greedy⟩ | ⟨seeding, c, stuck⟩
    · by_cases none : ∀ k, ¬Admits names size maxSeed seeding b k
      · exact .inr ⟨seeding, b, List.prefix_rfl, greedy, none⟩
      · obtain ⟨seed, least⟩ : ∃ seed, IsLeast {k | Admits names size maxSeed seeding b k} seed := by
          classical
          push Not at none
          exact ⟨Nat.find none, Nat.find_spec none, fun _ => Nat.find_min' none⟩
        refine .inl ⟨seeding ++ [(b, seed)], by simp, isGreedy_append.2 ⟨greedy, ?_, trivial⟩⟩
        simpa using least
    · exact .inr ⟨seeding, c, stuck.next.trans (List.prefix_append _ _), stuck.greedy, stuck.none⟩

end ResourceArchive.Assignment
