import Mathlib.Data.List.Range
import ResourceArchive.Proofs.Index.Lookup
import ResourceArchive.Proofs.Index.Seeding

/-! The assignment as a whole. Once the crowded buckets have their seeds, the names that are alone in
    their bucket take the free slots in order, and there are enough of these. So an assignment is made
    exactly when every crowded bucket can be given a seed, and `Completed` says what it is then. -/

namespace ResourceArchive.Assignment

variable {names : List Bytes} {size : Nat} {seeding : Seeding}

/-- The buckets with one name, in ascending order. -/
def lone (names : List Bytes) (size : Nat) : List Nat :=
  (List.range size).filter fun b => (namesIn names size b).length = 1

/-- The slots that are left when the crowded buckets have their seeds, in ascending order. -/
def free (names : List Bytes) (size : Nat) (seeding : Seeding) : List Nat :=
  (List.range size).filter (· ∉ seededSlots names size seeding)

namespace Progress

variable {p : Progress}

/-! ### Free slots in order -/

/-- The free slots from `slot` on. -/
def freeFrom (p : Progress) (slot : Nat) : List Nat :=
  (List.range' slot (p.size - slot)).filter fun k => !p.taken.contains k

/-- Gives a free slot to the name that is alone in its bucket. -/
def settle (p : Progress) : (Nat × Nat) × Nat → Progress
  | ((bucket, place), slot) => (p.direct bucket (.direct slot)).give place slot

theorem firstFree?_eq_head? (p : Progress) (count slot : Nat) :
    p.firstFree? count slot
      = ((List.range' slot count).filter fun k => !p.taken.contains k).head? := by
  induction count generalizing slot with
  | zero => rfl
  | succ count ih =>
    rw [firstFree?, List.range'_succ, List.filter_cons, ih]
    cases p.taken.contains slot <;> rfl

theorem mem_freeFrom {slot k : Nat} : k ∈ p.freeFrom slot ↔ slot ≤ k ∧ k < p.size ∧ k ∉ p.taken := by
  have within : slot ≤ k ∧ k < slot + (p.size - slot) ↔ slot ≤ k ∧ k < p.size := by omega
  rw [freeFrom, List.mem_filter, List.mem_range'_1, within, and_assoc, Bool.not_eq_true',
    ← Bool.not_eq_true, ← Std.TreeSet.mem_iff_contains]

theorem freeFrom_ascending (p : Progress) (slot : Nat) : (p.freeFrom slot).Pairwise (· < ·) :=
  (List.pairwise_lt_range' 1).filter _

/-- When the first free slot is given away, the others are free from the next one on. -/
theorem freeFrom_settle {slot s : Nat} {rest : List Nat} (h : p.freeFrom slot = s :: rest)
    (single : Nat × Nat) : (p.settle (single, s)).freeFrom (s + 1) = rest := by
  have ascending := h ▸ p.freeFrom_ascending slot
  obtain ⟨first, ascending⟩ := List.pairwise_cons.1 ascending
  refine List.Pairwise.eq_of_mem_iff (freeFrom_ascending _ _) ascending fun k => ?_
  have mem : k ∈ s :: rest ↔ slot ≤ k ∧ k < p.size ∧ k ∉ p.taken := h ▸ mem_freeFrom
  have start : slot ≤ s := (mem_freeFrom.1 (h ▸ List.mem_cons_self)).1
  have taken : k ∈ (p.settle (single, s)).taken ↔ s = k ∨ k ∈ p.taken := by
    rw [settle, give, Std.TreeSet.mem_insert, Nat.compare_eq_eq]
    rfl
  rw [mem_freeFrom, taken]
  constructor
  · rintro ⟨low, high, new⟩
    rw [not_or] at new
    rcases List.mem_cons.1 (mem.2 ⟨by omega, high, new.2⟩) with rfl | hk
    · exact absurd rfl new.1
    · exact hk
  · intro hk
    obtain ⟨-, high, new⟩ := mem.1 (.tail _ hk)
    have later := first k hk
    exact ⟨later, high, by rw [not_or]; exact ⟨Nat.ne_of_lt later, new⟩⟩

/-- While there are free slots enough, the single names take them in order. -/
theorem placeSingles_eq (singles : List (Nat × Nat)) {slot : Nat}
    (room : singles.length ≤ (p.freeFrom slot).length) :
    p.placeSingles slot singles = .ok ((singles.zip (p.freeFrom slot)).foldl settle p) := by
  induction singles generalizing p slot with
  | nil => rfl
  | cons single others ih =>
    obtain ⟨bucket, place⟩ := single
    rcases h : p.freeFrom slot with _ | ⟨s, rest⟩
    · rw [h] at room
      cases room
    · have chosen : p.firstFree? (p.size - slot) slot = some s := by
        rw [firstFree?_eq_head?, ← freeFrom, h]
        rfl
      have left := freeFrom_settle h (bucket, place)
      rw [placeSingles, chosen, List.zip_cons_cons, List.foldl_cons, ← left]
      rw [h, ← left] at room
      exact ih (Nat.le_of_succ_le_succ room)

theorem redirect_settle (p : Progress) (s : (Nat × Nat) × Nat) (b : Nat) :
    (p.settle s).redirect b = if s.1.1 = b then .direct s.2 else p.redirect b :=
  redirect_direct ..

/-- Then their buckets lead to these slots in order, and the others to where they led before. -/
theorem redirect_settleAll (singles : List (Nat × Nat)) (slots : List Nat) (p : Progress)
    (room : singles.length ≤ slots.length) (apart : singles.Pairwise fun s t => s.1 ≠ t.1) :
    (singles.map (·.1)).map ((singles.zip slots).foldl settle p).redirect
        = (slots.take singles.length).map .direct
      ∧ ∀ b, b ∉ singles.map (·.1) →
        ((singles.zip slots).foldl settle p).redirect b = p.redirect b := by
  induction singles generalizing slots p with
  | nil => simp
  | cons single others ih =>
    obtain ⟨unlike, apart⟩ := List.pairwise_cons.1 apart
    rcases slots with _ | ⟨slot, slots⟩
    · cases room
    obtain ⟨inside, outside⟩ := ih slots (p.settle (single, slot)) (Nat.le_of_succ_le_succ room) apart
    have once : single.1 ∉ others.map (·.1) := by
      intro again
      obtain ⟨t, ht, same⟩ := List.mem_map.1 again
      exact unlike t ht same.symm
    constructor
    · rw [List.zip_cons_cons, List.foldl_cons, List.map_cons, List.map_cons, inside, outside _ once,
        redirect_settle, if_pos rfl]
      rfl
    · intro b hb
      rw [List.map_cons, List.mem_cons, not_or] at hb
      rw [List.zip_cons_cons, List.foldl_cons, outside b hb.2, redirect_settle,
        if_neg (Ne.symm hb.1)]

end Progress

/-! ### Room for the single names -/

theorem singles_eq_lone (room : names.length ≤ size) :
    (singles (buckets names size)).map (·.1) = lone names size := by
  have listed : ((singles (buckets names size)).map (·.1)).Pairwise (· < ·) :=
    List.pairwise_map.2 (singles_ascending _)
  refine listed.eq_of_mem_iff (List.pairwise_lt_range.filter _) fun b => ?_
  rw [List.mem_map, lone, List.mem_filter, List.mem_range, decide_eq_true_iff, ← inBucket_length]
  constructor
  · rintro ⟨⟨b, i⟩, h, rfl⟩
    obtain ⟨name, single⟩ := mem_singles.1 h
    obtain ⟨all, some⟩ := getElem?_buckets.1 single
    exact ⟨lt_size_of_inBucket room (all ▸ some), by rw [← all]; rfl⟩
  · rintro ⟨-, one⟩
    obtain ⟨⟨i, name⟩, single⟩ := List.length_eq_one_iff.1 one
    exact ⟨(b, i), mem_singles.2 ⟨name, getElem?_buckets.2 ⟨single.symm, by simp⟩⟩, rfl⟩

/-- The names of different buckets are different names. -/
theorem inBuckets_length_le (names : List Bytes) (size : Nat) {done : List Nat} (h : done.Nodup) :
    (inBuckets names size done).length ≤ names.length := by
  have once (b : Nat) : (inBucket names size b).Nodup :=
    (inBucket_pairwise names size b).imp fun places same => places (congrArg _ same)
  have apart : (inBuckets names size done).Nodup := by
    refine List.nodup_flatMap.2 ⟨fun b _ => once b, h.imp ?_⟩
    intro b c differ e hb hc
    exact differ ((mem_inBucket.1 hb).2.symm.trans (mem_inBucket.1 hc).2)
  have listed : inBuckets names size done ⊆ entries names := by
    intro e he
    obtain ⟨b, -, he⟩ := List.mem_flatMap.1 he
    exact mem_entries.2 (mem_inBucket.1 he).1
  calc (inBuckets names size done).length ≤ (entries names).length := apart.length_le_of_subset listed
    _ = names.length := by rw [entries, List.length_map, List.length_zipIdx]

theorem seededSlots_length (names : List Bytes) (size : Nat) (seeding : Seeding) :
    (seededSlots names size seeding).length
      = (inBuckets names size (seeding.map (·.1))).length := by
  simp [seededSlots, inBuckets, spread, List.length_flatMap, List.flatMap_map, inBucket_length]

theorem inBuckets_lone_length (names : List Bytes) (size : Nat) :
    (inBuckets names size (lone names size)).length = (lone names size).length := by
  have one : ∀ b ∈ lone names size, (inBucket names size b).length = 1 := fun b hb => by
    rw [inBucket_length]
    exact of_decide_eq_true (List.mem_filter.1 hb).2
  rw [inBuckets, List.length_flatMap, List.map_congr_left one]
  simp

theorem size_le_free (names : List Bytes) (size : Nat) (seeding : Seeding) :
    size ≤ (seededSlots names size seeding).length + (free names size seeding).length := by
  have covered : List.range size ⊆ seededSlots names size seeding ++ free names size seeding := by
    intro slot hs
    rw [List.mem_append, free, List.mem_filter, decide_eq_true_iff]
    by_cases given : slot ∈ seededSlots names size seeding
    · exact .inl given
    · exact .inr ⟨hs, given⟩
  simpa using List.nodup_range.length_le_of_subset covered

theorem not_lone_of_crowded {b : Nat} (crowded : b ∈ order names size) : b ∉ lone names size := by
  intro single
  have several := ((isOrder_order names size).mem_iff b).1 crowded
  have one := of_decide_eq_true (List.mem_filter.1 single).2
  omega

/-- When the crowded buckets have their slots, there are enough left for the single names. -/
theorem lone_length_le (room : names.length ≤ size)
    (follows : seeding.map (·.1) = order names size) :
    (lone names size).length ≤ (free names size seeding).length := by
  -- Each name has a bucket, so the slots of the crowded buckets and the single names are no more than
  -- the names, and these are no more than the slots.
  have apart : (order names size ++ lone names size).Nodup := by
    refine (isOrder_order names size).nodup.append (List.nodup_range.filter _) ?_
    intro b crowded single
    exact not_lone_of_crowded crowded single
  have shared := inBuckets_length_le names size apart
  have seeds := seededSlots_length names size seeding
  have slots := size_le_free names size seeding
  rw [inBuckets, List.flatMap_append, List.length_append, ← inBuckets, ← inBuckets,
    inBuckets_lone_length, ← follows] at shared
  omega

/-! ### The whole assignment -/

theorem seeded_start (names : List Bytes) (size : Nat) : (start names size).Seeded names size [] where
  size_eq := rfl
  directed _ h := absurd h List.not_mem_nil
  undirected b _ := by simp [redirect, start]
  taken slot := by simp [start, seededSlots]

/-- The assignment in which the crowded buckets have these seeds. -/
def ofSeeding (names : List Bytes) (size : Nat) (seeding : Seeding) : Assignment :=
  (((singles (buckets names size)).zip (free names size seeding)).foldl Progress.settle
    (seeding.foldl (Progress.seat names size) (start names size))).toAssignment

section Build

variable {maxSeed : Int32} {a : Assignment} {b : Nat} {e : Error}

theorem freeFrom_zero {p : Progress} (h : p.Seeded names size seeding) :
    p.freeFrom 0 = free names size seeding := by
  rw [Progress.freeFrom, free, h.size_eq, Nat.sub_zero, List.range_eq_range']
  refine List.filter_congr fun slot _ => ?_
  rw [Bool.eq_iff_iff, Bool.not_eq_true', ← Bool.not_eq_true, ← Std.TreeSet.mem_iff_contains,
    h.taken, decide_eq_true_iff]

theorem build_eq (room : names.length ≤ size) (few : size ≤ maxBuckets) :
    build names size maxSeed = do
      let p ← ((order names size).map fun b => (b, inBucket names size b)).foldlM
        (Progress.placeGroup maxSeed.toInt.toNat) (start names size)
      let p ← p.placeSingles 0 (singles (buckets names size))
      return p.toAssignment := by
  rw [build, if_neg (by omega), if_neg (by omega), ← groups_eq_map_order]
  rfl

theorem build_of_isGreedy (room : names.length ≤ size) (few : size ≤ maxBuckets)
    (follows : seeding.map (·.1) = order names size)
    (greedy : IsGreedy names size maxSeed.toInt [] seeding) :
    build names size maxSeed = .ok (ofSeeding names size seeding) := by
  have new : (([] : Seeding).map (·.1) ++ seeding.map (·.1)).Nodup :=
    follows ▸ (isOrder_order names size).nodup
  have seeded : Progress.Seeded names size seeding _ :=
    (seeded_start names size).foldl_seat seeding new
  have slots := freeFrom_zero seeded
  have enough := lone_length_le room follows
  rw [← singles_eq_lone room, List.length_map, ← slots] at enough
  rw [build_eq room few, ← follows, (seeded_start names size).placeGroups_of_isGreedy seeding new greedy,
    ok_bind, Progress.placeSingles_eq _ enough, ok_bind, slots]
  rfl

theorem build_of_stuck (room : names.length ≤ size) (few : size ≤ maxBuckets)
    (stuck : Stuck names size maxSeed.toInt (order names size) seeding b) :
    build names size maxSeed = .error (.noSeed b (namesIn names size b).length) := by
  obtain ⟨rest, follows⟩ := stuck.next
  have distinct := (isOrder_order names size).nodup
  rw [← follows] at distinct
  have new : (([] : Seeding).map (·.1) ++ seeding.map (·.1)).Nodup :=
    (List.nodup_append.1 (List.nodup_append.1 distinct).1).1
  have seeded : Progress.Seeded names size seeding _ :=
    (seeded_start names size).foldl_seat seeding new
  rw [build_eq room few, ← follows, List.map_append, List.map_append, List.foldlM_append,
    List.foldlM_append,
    (seeded_start names size).placeGroups_of_isGreedy seeding new stuck.greedy, ok_bind,
    List.map_singleton, List.foldlM_cons, seeded.placeGroup_of_none stuck.none]
  rfl

/-- If there is room, every crowded bucket has a seed, or there is a first one that has none. -/
theorem build_cases (room : names.length ≤ size) (few : size ≤ maxBuckets) (maxSeed : Int32) :
    (∃ seeding, seeding.map (·.1) = order names size ∧ IsGreedy names size maxSeed.toInt [] seeding
      ∧ build names size maxSeed = .ok (ofSeeding names size seeding))
    ∨ ∃ seeding b, Stuck names size maxSeed.toInt (order names size) seeding b
      ∧ build names size maxSeed = .error (.noSeed b (namesIn names size b).length) := by
  obtain ⟨seeding, follows, greedy⟩ | ⟨seeding, b, stuck⟩ :=
    exists_isGreedy_or_stuck names size maxSeed.toInt (order names size)
  · exact .inl ⟨seeding, follows, greedy, build_of_isGreedy room few follows greedy⟩
  · exact .inr ⟨seeding, b, stuck, build_of_stuck room few stuck⟩

/-- An assignment is made if every crowded bucket can be given a seed. -/
theorem build_eq_ok : build names size maxSeed = .ok a ↔ names.length ≤ size ∧ size ≤ maxBuckets
    ∧ ∃ seeding, seeding.map (·.1) = order names size ∧ IsGreedy names size maxSeed.toInt [] seeding
      ∧ a = ofSeeding names size seeding := by
  constructor
  · intro h
    have perfect := perfect_of_build h
    refine ⟨perfect.room, perfect.size_le, ?_⟩
    obtain ⟨seeding, follows, greedy, made⟩ | ⟨seeding, b, -, failed⟩ :=
      build_cases perfect.room perfect.size_le maxSeed
    · rw [made] at h
      cases h
      exact ⟨seeding, follows, greedy, rfl⟩
    · rw [failed] at h
      cases h
  · rintro ⟨room, few, seeding, follows, greedy, rfl⟩
    exact build_of_isGreedy room few follows greedy

/-- It fails where there are too many names or buckets, or a bucket without a seed. -/
theorem build_eq_error : build names size maxSeed = .error e ↔
    if size < names.length then e = .tooLarge .names
    else if maxBuckets < size then e = .tooLarge .buckets
    else ∃ seeding b, Stuck names size maxSeed.toInt (order names size) seeding b
      ∧ e = .noSeed b (namesIn names size b).length := by
  split
  · next crowded => rw [build, if_pos crowded, Except.error.injEq, eq_comm]
  split
  · next room large => rw [build, if_neg room, if_pos large, Except.error.injEq, eq_comm]
  next room few =>
  rw [Nat.not_lt] at room few
  constructor
  · intro h
    obtain ⟨seeding, -, -, made⟩ | ⟨seeding, b, stuck, failed⟩ := build_cases room few maxSeed
    · rw [made] at h
      cases h
    · rw [failed] at h
      cases h
      exact ⟨seeding, b, stuck, rfl⟩
  · rintro ⟨seeding, b, stuck, rfl⟩
    exact build_of_stuck room few stuck

end Build

/-! ### What stands in it -/

/-- What an assignment gives to buckets and to names, when its crowded buckets have their seeds. -/
structure Completed (names : List Bytes) (size : Nat) (seeding : Seeding) (a : Assignment) : Prop where
  size_eq : a.size = size
  empty : ∀ b, namesIn names size b = [] → a.redirect b = .empty
  seeded : ∀ g ∈ seeding, a.redirect g.1 = .seeded g.2
  settled : (lone names size).map a.redirect
    = ((free names size seeding).take (lone names size).length).map .direct
  size_slots : a.slots.size = names.length
  given : ∀ (i : Nat) (name : Bytes), names[i]? = some name → ∃ slot, a.slots[i]? = some slot
    ∧ (a.redirect (Hash.bucket name size)).slot? name size = some slot

variable {maxSeed : Int32} {a : Assignment}

theorem completed_ofSeeding (follows : seeding.map (·.1) = order names size)
    (h : build names size maxSeed = .ok (ofSeeding names size seeding)) :
    Completed names size seeding (ofSeeding names size seeding) := by
  have perfect := perfect_of_build h
  have seeded : Progress.Seeded names size seeding _ := (seeded_start names size).foldl_seat seeding
    (follows ▸ (isOrder_order names size).nodup)
  have listed := singles_eq_lone perfect.room
  have enough := lone_length_le perfect.room follows
  rw [← listed, List.length_map] at enough
  obtain ⟨settled, others⟩ := Progress.redirect_settleAll (singles (buckets names size))
    (free names size seeding) (seeding.foldl (Progress.seat names size) (start names size))
    enough (singles_pairwise _)
  rw [listed] at settled others
  refine ⟨perfect.size_eq, ?_, ?_, ?_, perfect.size_slots, ?_⟩
  · intro b none
    have single : b ∉ lone names size := by simp [lone, none]
    have crowded : b ∉ seeding.map (·.1) := by
      rw [follows, (isOrder_order names size).mem_iff, none]
      exact Nat.not_lt_zero 1
    exact (others b single).trans (seeded.undirected b crowded)
  · intro g hg
    have crowded : g.1 ∈ order names size := follows ▸ List.mem_map_of_mem hg
    exact (others g.1 (not_lone_of_crowded crowded)).trans (seeded.directed g hg)
  · rwa [← List.length_map (·.1), listed] at settled
  · intro i name listed
    obtain ⟨slot, -, given, leads⟩ := perfect.resolves (i, name) listed
    rw [perfect.size_eq] at leads
    exact ⟨slot, given, leads⟩

/-- A bucket is empty, or has a free slot, or has a seed, by the number of its names. -/
theorem Completed.redirect_cases (h : Completed names size seeding a) (room : names.length ≤ size)
    (follows : seeding.map (·.1) = order names size) (b : Nat) :
    (namesIn names size b = [] ∧ a.redirect b = .empty)
    ∨ ((namesIn names size b).length = 1 ∧ b ∈ lone names size ∧ ∃ slot, a.redirect b = .direct slot)
    ∨ 1 < (namesIn names size b).length ∧ ∃ seed, (b, seed) ∈ seeding ∧ a.redirect b = .seeded seed := by
  rcases Nat.lt_trichotomy (namesIn names size b).length 1 with few | one | several
  · have none : namesIn names size b = [] := List.length_eq_zero_iff.1 (by omega)
    exact .inl ⟨none, h.empty b none⟩
  · have some : inBucket names size b ≠ [] := by
      rw [← List.length_pos_iff, inBucket_length]
      omega
    have single : b ∈ lone names size :=
      List.mem_filter.2 ⟨List.mem_range.2 (lt_size_of_inBucket room some), by simpa using one⟩
    have settled := List.mem_map_of_mem (f := a.redirect) single
    rw [h.settled] at settled
    obtain ⟨slot, -, leads⟩ := List.mem_map.1 settled
    exact .inr (.inl ⟨one, single, slot, leads.symm⟩)
  · have crowded : b ∈ seeding.map (·.1) :=
      follows ▸ ((isOrder_order names size).mem_iff b).2 several
    obtain ⟨⟨b, seed⟩, hg, rfl⟩ := List.mem_map.1 crowded
    exact .inr (.inr ⟨several, seed, hg, h.seeded _ hg⟩)

/-- The sign of a redirect tells how many names its bucket has. -/
theorem Completed.sign (h : Completed names size seeding a) (room : names.length ≤ size)
    (follows : seeding.map (·.1) = order names size)
    (greedy : IsGreedy names size maxSeed.toInt [] seeding) (b : Nat) :
    ((a.redirect b).toInt = 0 ↔ (namesIn names size b).length = 0)
      ∧ ((a.redirect b).toInt < 0 ↔ (namesIn names size b).length = 1)
      ∧ (0 < (a.redirect b).toInt ↔ 1 < (namesIn names size b).length) := by
  obtain ⟨none, leads⟩ | ⟨one, -, slot, leads⟩ | ⟨several, seed, hg, leads⟩ :=
    h.redirect_cases room follows b
  · have empty : (namesIn names size b).length = 0 := by rw [none]; rfl
    rw [leads, Redirect.toInt]
    omega
  · rw [leads, Redirect.toInt]
    omega
  · have positive := greedy.positive _ hg
    rw [leads, Redirect.toInt]
    omega

/-- Names are given slots greedily. The buckets with several names come first, the largest ahead and
    equally large ones by number, and each takes the least seed that sends its names to different slots
    that no earlier one has; the names that are alone then take the free slots, both in ascending order.
    This fails only for want of room, or at the first bucket for which there is no seed. -/
theorem build_isGreedy (names : List Bytes) (size : Nat) (maxSeed : Int32) :
    ∃ order, IsOrder names size order
      ∧ (∀ e, build names size maxSeed = .error e ↔
          if size < names.length then e = .tooLarge .names
          else if maxBuckets < size then e = .tooLarge .buckets
          else ∃ seeding b, Stuck names size maxSeed.toInt order seeding b
            ∧ 2 ≤ (namesIn names size b).length ∧ e = .noSeed b (namesIn names size b).length)
      ∧ ∀ a, build names size maxSeed = .ok a → ∃ seeding, seeding.map (·.1) = order
          ∧ IsGreedy names size maxSeed.toInt [] seeding ∧ Completed names size seeding a
          ∧ ∀ b, ((a.redirect b).toInt = 0 ↔ (namesIn names size b).length = 0)
            ∧ ((a.redirect b).toInt < 0 ↔ (namesIn names size b).length = 1)
            ∧ (0 < (a.redirect b).toInt ↔ 1 < (namesIn names size b).length) := by
  refine ⟨order names size, isOrder_order names size, ?_, ?_⟩
  · intro e
    rw [build_eq_error]
    split_ifs
    · rfl
    · rfl
    · constructor
      · rintro ⟨seeding, b, stuck, rfl⟩
        have crowded : b ∈ order names size := stuck.next.subset (by simp)
        exact ⟨seeding, b, stuck, ((isOrder_order names size).mem_iff b).1 crowded, rfl⟩
      · rintro ⟨seeding, b, stuck, -, rfl⟩
        exact ⟨seeding, b, stuck, rfl⟩
  · intro a h
    obtain ⟨room, -, seeding, follows, greedy, rfl⟩ := build_eq_ok.1 h
    have completed := completed_ofSeeding follows h
    exact ⟨seeding, follows, greedy, completed, completed.sign room follows greedy⟩

/-- The names from a to f. Of six buckets, two have two of them, two have one and two have none. -/
def sixLetters : List Bytes := [[0x61], [0x62], [0x63], [0x64], [0x65], [0x66]]

theorem build_isGreedy_sixLetters :
    ∃ a seeding, build sixLetters 6 100 = .ok a ∧ IsGreedy sixLetters 6 100 [] seeding
      ∧ Completed sixLetters 6 seeding a
      ∧ (a.redirect 0).toInt < 0 ∧ (a.redirect 1).toInt = 0 ∧ 0 < (a.redirect 5).toInt := by
  obtain ⟨a, h⟩ : ∃ a, build sixLetters 6 100 = .ok a := eq_ok_of_isOk (by decide)
  obtain ⟨order, -, -, made⟩ := build_isGreedy sixLetters 6 100
  obtain ⟨seeding, -, greedy, completed, sign⟩ := made a h
  exact ⟨a, seeding, h, greedy, completed, (sign 0).2.1.2 (by decide), (sign 1).1.2 (by decide),
    (sign 5).2.2.2 (by decide)⟩

end ResourceArchive.Assignment
