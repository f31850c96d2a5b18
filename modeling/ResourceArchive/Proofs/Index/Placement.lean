import ResourceArchive.Proofs.Index.Buckets

/-! What holds while slots are given out. `Progress.Sound` is the invariant: every name that was placed
    is found at its slot through the redirect of its bucket, and no two names share a slot. Giving one
    slot keeps it, so placing a group and placing the single names keep it, and `build` ends with
    every name placed. -/

namespace ResourceArchive

/-- Whether an entry can stand in the table of an index with `size` slots. -/
def Redirect.Fits (size : Nat) : Redirect → Prop
  | empty => True
  | direct slot => slot < size
  | seeded seed => 0 < seed ∧ seed ≤ maxBuckets

namespace Assignment

/-- A name is given a slot, and looking the name up leads to it. -/
structure Resolves (a : Assignment) (e : Entry) (slot : Nat) : Prop where
  given : a.slots[e.1]? = some slot
  leads : (a.redirect (Hash.bucket e.2 a.size)).slot? e.2 a.size = some slot

/-- The names of several buckets. -/
def inBuckets (names : List Bytes) (size : Nat) (done : List Nat) : List Entry :=
  done.flatMap (inBucket names size)

/-- The invariant of the placement: `placed` are the names that have their slots. -/
structure Progress.Sound (names : List Bytes) (size : Nat) (placed : List Entry) (p : Progress) :
    Prop where
  size_eq : p.size = size
  size_slots : p.slots.size = names.length
  listed : ∀ e ∈ placed, names[e.1]? = some e.2
  resolves : ∀ e ∈ placed, ∃ slot, p.Resolves e slot
  apart : ∀ e ∈ placed, ∀ f ∈ placed, p.slots[e.1]? = p.slots[f.1]? → e.1 = f.1
  taken : ∀ slot, slot ∈ p.taken ↔ ∃ e ∈ placed, p.slots[e.1]? = some slot
  inside : ∀ slot ∈ p.taken, slot < size
  fits : ∀ b r, p.redirects[b]? = some r → b < size ∧ r.Fits size

namespace Progress

variable {names : List Bytes} {size : Nat} {placed : List Entry} {p q : Progress}

/-! ### One step -/

theorem redirect_direct (p : Progress) (b c : Nat) (r : Redirect) :
    (p.direct b r).redirect c = if b = c then r else p.redirect c := by
  simp only [redirect, direct, Std.TreeMap.getD_insert, Nat.compare_eq_eq]

theorem getElem?_give (p : Progress) (i j slot : Nat) (h : i < p.slots.size) :
    (p.give i slot).slots[j]? = if i = j then some slot else p.slots[j]? := by
  simp only [give, Array.getElem?_setIfInBounds, h, if_true]

/-- A bucket none of whose names is placed may be directed anywhere. -/
theorem Sound.direct (h : p.Sound names size placed) {b : Nat} {r : Redirect} (inside : b < size)
    (fits : r.Fits size) (fresh : ∀ e ∈ placed, Hash.bucket e.2 size ≠ b) :
    (p.direct b r).Sound names size placed where
  size_eq := h.size_eq
  size_slots := h.size_slots
  listed := h.listed
  resolves e he := by
    obtain ⟨slot, given, leads⟩ := h.resolves e he
    refine ⟨slot, given, ?_⟩
    have other : b ≠ Hash.bucket e.2 p.size := h.size_eq ▸ (fresh e he).symm
    show ((p.direct b r).redirect (Hash.bucket e.2 p.size)).slot? e.2 p.size = some slot
    rw [redirect_direct, if_neg other]
    exact leads
  apart := h.apart
  taken := h.taken
  inside := h.inside
  fits c s hs := by
    rw [Progress.direct, Std.TreeMap.getElem?_insert] at hs
    split at hs
    · next same =>
      cases hs
      exact Nat.compare_eq_eq.1 same ▸ ⟨inside, fits⟩
    · exact h.fits c s hs

/-- A name may be given a free slot to which its bucket leads. -/
theorem Sound.give (h : p.Sound names size placed) {e : Entry} {slot : Nat}
    (listed : names[e.1]? = some e.2) (new : ∀ f ∈ placed, f.1 ≠ e.1) (inside : slot < size)
    (free : slot ∉ p.taken)
    (leads : (p.redirect (Hash.bucket e.2 size)).slot? e.2 size = some slot) :
    (p.give e.1 slot).Sound names size (placed ++ [e]) := by
  have place : e.1 < p.slots.size := h.size_slots ▸ (List.getElem?_eq_some_iff.1 listed).1
  have here : (p.give e.1 slot).slots[e.1]? = some slot := by
    rw [getElem?_give _ _ _ _ place, if_pos rfl]
  have there : ∀ f ∈ placed, (p.give e.1 slot).slots[f.1]? = p.slots[f.1]? := fun f hf => by
    rw [getElem?_give _ _ _ _ place, if_neg (new f hf).symm]
  have unlike : ∀ f ∈ placed, p.slots[f.1]? ≠ some slot := fun f hf given =>
    free ((h.taken slot).2 ⟨f, hf, given⟩)
  have mem {f : Entry} : f ∈ placed ++ [e] ↔ f ∈ placed ∨ f = e := by
    rw [List.mem_append, List.mem_singleton]
  refine ⟨h.size_eq, ?_, ?_, ?_, ?_, ?_, ?_, h.fits⟩
  · exact (Array.size_setIfInBounds ..).trans h.size_slots
  · intro f hf
    rcases mem.1 hf with hf | rfl
    · exact h.listed f hf
    · exact listed
  · intro f hf
    rcases mem.1 hf with hf | rfl
    · obtain ⟨s, given, leads⟩ := h.resolves f hf
      exact ⟨s, (there f hf).trans given, leads⟩
    · exact ⟨slot, here, h.size_eq.symm ▸ leads⟩
  · intro f hf g hg same
    rcases mem.1 hf with hf' | rfl <;> rcases mem.1 hg with hg' | rfl
    · rw [there f hf', there g hg'] at same
      exact h.apart f hf' g hg' same
    · rw [there f hf', here] at same
      exact absurd same (unlike f hf')
    · rw [here, there g hg'] at same
      exact absurd same.symm (unlike g hg')
    · rfl
  · intro s
    simp only [Progress.give, Std.TreeSet.mem_insert, Nat.compare_eq_eq]
    constructor
    · rintro (rfl | hs)
      · exact ⟨e, mem.2 (.inr rfl), here⟩
      · obtain ⟨f, hf, given⟩ := (h.taken s).1 hs
        exact ⟨f, mem.2 (.inl hf), (there f hf).trans given⟩
    · rintro ⟨f, hf, given⟩
      rcases mem.1 hf with hf | rfl
      · exact .inr ((h.taken s).2 ⟨f, hf, (there f hf).symm.trans given⟩)
      · exact .inl (Option.some.inj (here.symm.trans given))
  · intro s hs
    rcases Std.TreeSet.mem_insert.1 hs with same | hs
    · exact Nat.compare_eq_eq.1 same ▸ inside
    · exact h.inside s hs

/-- The names of a bucket may be given free slots, no two the same, to which the bucket leads. -/
theorem Sound.giveAll {b : Nat} {r : Redirect} {target : Entry → Nat} (group : List Entry)
    (h : p.Sound names size placed) (directed : p.redirect b = r)
    (listed : ∀ e ∈ group, names[e.1]? = some e.2 ∧ Hash.bucket e.2 size = b)
    (places : group.Pairwise fun e f => e.1 ≠ f.1)
    (new : ∀ f ∈ placed, ∀ e ∈ group, f.1 ≠ e.1)
    (leads : ∀ e ∈ group, r.slot? e.2 size = some (target e))
    (inside : ∀ e ∈ group, target e < size) (free : ∀ e ∈ group, target e ∉ p.taken)
    (distinct : (group.map target).Nodup) :
    (group.foldl (fun p e => p.give e.1 (target e)) p).Sound names size (placed ++ group) := by
  induction group generalizing p placed with
  | nil => simpa using h
  | cons e rest ih =>
    obtain ⟨apart, places⟩ := List.pairwise_cons.1 places
    obtain ⟨unlike, distinct⟩ := List.nodup_cons.1 distinct
    have first := h.give (listed e (.head _)).1 (fun f hf => new f hf e (.head _))
      (inside e (.head _)) (free e (.head _))
      (by rw [(listed e (.head _)).2, directed]; exact leads e (.head _))
    have later := ih first directed (fun f hf => listed f (.tail _ hf)) places
      (fun f hf g hg => by
        rcases List.mem_append.1 hf with hf | hf
        · exact new f hf g (.tail _ hg)
        · rw [List.mem_singleton.1 hf]
          exact apart g hg)
      (fun f hf => leads f (.tail _ hf)) (fun f hf => inside f (.tail _ hf))
      (fun f hf => by
        rw [Progress.give, Std.TreeSet.mem_insert, Nat.compare_eq_eq]
        rintro (same | taken)
        · exact unlike (same ▸ List.mem_map_of_mem hf)
        · exact free f (.tail _ hf) taken)
      distinct
    simpa using later

/-! ### The choices -/

/-- A seed is accepted if it sends the names of a group to slots that are free and all different. -/
theorem claim?_eq_some {seed : UInt32} {claimed slots : List Nat} {group : List Entry} :
    p.claim? seed claimed group = some slots
      ↔ slots = claimed.reverse ++ group.map (Hash.slot ·.2 seed p.size)
        ∧ (∀ e ∈ group, Hash.slot e.2 seed p.size ∉ claimed ∧ Hash.slot e.2 seed p.size ∉ p.taken)
        ∧ (group.map (Hash.slot ·.2 seed p.size)).Nodup := by
  induction group generalizing claimed with
  | nil => simp [claim?, eq_comm]
  | cons e rest ih =>
    obtain ⟨i, name⟩ := e
    rw [claim?]
    by_cases taken : Hash.slot name seed p.size ∈ claimed ∨ Hash.slot name seed p.size ∈ p.taken
    · rw [if_pos (by simpa using taken)]
      constructor
      · intro h
        cases h
      · rintro ⟨-, free, -⟩
        have := free _ (.head _)
        exact absurd taken (not_or.2 this)
    · rw [if_neg (by simpa using taken), ih]
      rw [List.forall_mem_cons]
      simp only [List.reverse_cons, List.append_assoc, List.map_cons, List.nodup_cons,
        List.mem_cons, List.cons_append, List.nil_append, List.mem_map]
      constructor
      · rintro ⟨hslots, free, distinct⟩
        refine ⟨hslots, ⟨not_or.1 taken, fun e he => ⟨fun h => (free e he).1 (.inr h), (free e he).2⟩⟩,
          ?_, distinct⟩
        rintro ⟨e, he, same⟩
        exact (free e he).1 (.inl same)
      · rintro ⟨hslots, ⟨-, free⟩, unlike, distinct⟩
        refine ⟨hslots, fun e he => ⟨?_, (free e he).2⟩, distinct⟩
        rintro (same | h)
        · exact unlike ⟨e, he, same⟩
        · exact (free e he).1 h

/-- The seed of a group is the first that is accepted. -/
theorem leastSeed?_eq_some {group : List Entry} {count seed s : Nat} {slots : List Nat}
    (h : p.leastSeed? group count seed = some (s, slots)) :
    seed ≤ s ∧ s < seed + count ∧ p.claim? (UInt32.ofNat s) [] group = some slots
      ∧ ∀ k, seed ≤ k → k < s → p.claim? (UInt32.ofNat k) [] group = none := by
  induction count generalizing seed with
  | zero => cases h
  | succ count ih =>
    rw [leastSeed?] at h
    split at h
    · next accepted =>
      cases h
      exact ⟨Nat.le_refl _, by omega, accepted, fun k _ _ => by omega⟩
    · next refused =>
      obtain ⟨lower, upper, accepted, least⟩ := ih h
      refine ⟨by omega, by omega, accepted, ?_⟩
      intro k hk below
      rcases Nat.eq_or_lt_of_le hk with rfl | hk
      · exact refused
      · exact least k hk below

theorem firstFree?_eq_some {count slot s : Nat} (h : p.firstFree? count slot = some s) :
    slot ≤ s ∧ s < slot + count ∧ s ∉ p.taken ∧ ∀ k, slot ≤ k → k < s → k ∈ p.taken := by
  induction count generalizing slot with
  | zero => cases h
  | succ count ih =>
    rw [firstFree?] at h
    split at h
    · next taken =>
      obtain ⟨lower, upper, free, first⟩ := ih h
      refine ⟨by omega, by omega, free, ?_⟩
      intro k hk below
      rcases Nat.eq_or_lt_of_le hk with rfl | hk
      · exact Std.TreeSet.mem_iff_contains.2 taken
      · exact first k hk below
    · next free =>
      cases h
      exact ⟨Nat.le_refl _, by omega, fun taken => free taken, fun k _ _ => by omega⟩

/-! ### Whole buckets -/

theorem bucket_of_mem_inBuckets {done : List Nat} {e : Entry} (h : e ∈ inBuckets names size done) :
    Hash.bucket e.2 size ∈ done := by
  obtain ⟨b, hb, he⟩ := List.mem_flatMap.1 h
  exact (mem_inBucket.1 he).2.symm ▸ hb

/-- All names of a bucket may be placed at once. -/
theorem Sound.place {done : List Nat} (h : p.Sound names size (inBuckets names size done)) {b : Nat}
    (r : Redirect) (target : Entry → Nat) (new : b ∉ done) (inside : b < size) (fits : r.Fits size)
    (leads : ∀ e ∈ inBucket names size b, r.slot? e.2 size = some (target e))
    (free : ∀ e ∈ inBucket names size b, target e < size ∧ target e ∉ p.taken)
    (distinct : ((inBucket names size b).map target).Nodup) :
    ((inBucket names size b).foldl (fun p e => p.give e.1 (target e)) (p.direct b r)).Sound names size
      (inBuckets names size (done ++ [b])) := by
  have fresh : ∀ e ∈ inBuckets names size done, Hash.bucket e.2 size ≠ b := fun e he same =>
    new (same ▸ bucket_of_mem_inBuckets he)
  have placed := (h.direct inside fits fresh).giveAll (b := b) (inBucket names size b)
    (by rw [redirect_direct, if_pos rfl]) (fun e he => mem_inBucket.1 he)
    (inBucket_pairwise names size b)
    (fun f hf e he same => by
      -- Names at one place are one name, which has one bucket.
      have listed := same ▸ h.listed f hf
      have alike := Option.some.inj (listed.symm.trans (mem_inBucket.1 he).1)
      exact fresh f hf (alike ▸ (mem_inBucket.1 he).2))
    leads (fun e he => (free e he).1) (fun e he => (free e he).2) distinct
  rw [inBuckets, List.flatMap_append, List.flatMap_singleton]
  exact placed

theorem Sound.placeGroup {done : List Nat} {maxSeed b : Nat}
    (h : p.Sound names size (inBuckets names size done)) (seeds : maxSeed ≤ maxBuckets)
    (new : b ∉ done) (inside : b < size)
    (placed : p.placeGroup maxSeed (b, inBucket names size b) = .ok q) :
    q.Sound names size (inBuckets names size (done ++ [b])) := by
  rw [Progress.placeGroup] at placed
  split at placed
  · cases placed
  · next seed slots chosen =>
    cases placed
    split at chosen
    · cases chosen
    · obtain ⟨lower, upper, accepted, -⟩ := leastSeed?_eq_some chosen
      obtain ⟨rfl, free, distinct⟩ := claim?_eq_some.1 accepted
      rw [h.size_eq] at free distinct ⊢
      have sound := h.place (.seeded seed) (fun e => Hash.slot e.2 (.ofNat seed) size)
        new inside ⟨lower, by omega⟩ (fun _ _ => rfl)
        (fun e he => ⟨Hash.slot_lt _ _ (Nat.zero_lt_of_lt inside), (free e he).2⟩) distinct
      rw [List.reverse_nil, List.nil_append, ← List.map_prod_left_eq_zip, List.foldl_map]
      exact sound

theorem Sound.placeGroups {maxSeed : Nat} (seeds : maxSeed ≤ maxBuckets)
    (groups : List (Nat × List Entry)) {done : List Nat}
    (h : p.Sound names size (inBuckets names size done))
    (whole : ∀ g ∈ groups, g.2 = inBucket names size g.1 ∧ g.1 < size ∧ g.1 ∉ done)
    (apart : groups.Pairwise fun g g' => g.1 ≠ g'.1)
    (placed : groups.foldlM (Progress.placeGroup maxSeed) p = .ok q) :
    q.Sound names size (inBuckets names size (done ++ groups.map (·.1))) := by
  induction groups generalizing p done with
  | nil => cases placed; simpa using h
  | cons g rest ih =>
    obtain ⟨b, group⟩ := g
    obtain ⟨all, inside, new⟩ := whole _ (.head _)
    cases (show group = inBucket names size b from all)
    obtain ⟨unlike, apart⟩ := List.pairwise_cons.1 apart
    rw [List.foldlM_cons] at placed
    rcases first : p.placeGroup maxSeed (b, inBucket names size b) with e | p'
    · rw [first] at placed; cases placed
    · rw [first] at placed
      have later := ih (h.placeGroup seeds new inside first)
        (fun g hg => by
          obtain ⟨all, inside, new⟩ := whole g (.tail _ hg)
          rw [List.mem_append, List.mem_singleton, not_or]
          exact ⟨all, inside, new, (unlike g hg).symm⟩)
        apart placed
      simpa using later

theorem Sound.placeSingles (singles : List (Nat × Nat)) {done : List Nat} {slot : Nat}
    (h : p.Sound names size (inBuckets names size done)) (start : slot ≤ size)
    (alone : ∀ s ∈ singles, (∃ name, inBucket names size s.1 = [(s.2, name)]) ∧ s.1 < size ∧ s.1 ∉ done)
    (apart : singles.Pairwise fun s s' => s.1 ≠ s'.1)
    (placed : p.placeSingles slot singles = .ok q) :
    q.Sound names size (inBuckets names size (done ++ singles.map (·.1))) := by
  induction singles generalizing p done slot with
  | nil => cases placed; simpa using h
  | cons s rest ih =>
    obtain ⟨b, i⟩ := s
    obtain ⟨⟨name, single⟩, inside, new⟩ := alone _ (.head _)
    obtain ⟨unlike, apart⟩ := List.pairwise_cons.1 apart
    rw [Progress.placeSingles] at placed
    split at placed
    · cases placed
    · next s chosen =>
      obtain ⟨lower, upper, free, -⟩ := firstFree?_eq_some chosen
      rw [h.size_eq] at upper
      have below : s < size := by omega
      have sound := h.place (.direct s) (fun _ => s) new inside below
        (fun _ _ => rfl) (fun _ _ => ⟨below, free⟩) (by simp [single])
      rw [single] at sound
      have later := ih sound below
        (fun t ht => by
          obtain ⟨single, inside, new⟩ := alone t (.tail _ ht)
          rw [List.mem_append, List.mem_singleton, not_or]
          exact ⟨single, inside, new, (unlike t ht).symm⟩)
        apart placed
      simpa using later

end Progress

/-- What the index relies on: every name is found at its slot, no two names share one, and the
    redirects can be written down. -/
structure Perfect (names : List Bytes) (size : Nat) (a : Assignment) : Prop where
  size_eq : a.size = size
  size_slots : a.slots.size = names.length
  room : names.length ≤ size
  size_le : size ≤ maxBuckets
  resolves : ∀ e : Entry, names[e.1]? = some e.2 → ∃ slot < size, a.Resolves e slot
  apart : ∀ i j slot : Nat, a.slots[i]? = some slot → a.slots[j]? = some slot → i = j
  fits : ∀ b r, a.redirects[b]? = some r → b < size ∧ r.Fits size

theorem lt_size_of_inBucket {names : List Bytes} {size b : Nat} (room : names.length ≤ size)
    (h : inBucket names size b ≠ []) : b < size := by
  obtain ⟨e, he⟩ := List.exists_mem_of_ne_nil _ h
  obtain ⟨listed, rfl⟩ := mem_inBucket.1 he
  have := (List.getElem?_eq_some_iff.1 listed).1
  exact Hash.bucket_lt _ (by omega)

theorem inBuckets_covers {names : List Bytes} {size : Nat} {e : Entry}
    (listed : names[e.1]? = some e.2) :
    e ∈ inBuckets names size ((groups (buckets names size)).map (·.1)
      ++ (singles (buckets names size)).map (·.1)) := by
  have here : e ∈ inBucket names size (Hash.bucket e.2 size) := mem_inBucket.2 ⟨listed, rfl⟩
  have table := getElem?_buckets.2 ⟨rfl, List.ne_nil_of_mem here⟩
  refine List.mem_flatMap.2 ⟨_, ?_, here⟩
  rw [List.mem_append, List.mem_map, List.mem_map]
  rcases hg : inBucket names size (Hash.bucket e.2 size) with _ | ⟨⟨i, name⟩, _ | ⟨f, rest⟩⟩
  · rw [hg] at here; cases here
  · rw [hg] at table
    exact .inr ⟨_, mem_singles.2 ⟨name, table⟩, rfl⟩
  · rw [hg] at table
    exact .inl ⟨_, mem_groups.2 ⟨table, by simp⟩, rfl⟩

/-- Before any slot is given out. -/
def start (names : List Bytes) (size : Nat) : Progress where
  size := size
  redirects := {}
  slots := Array.replicate names.length 0
  taken := {}

theorem Progress.sound_start (names : List Bytes) (size : Nat) :
    (start names size).Sound names size (inBuckets names size []) where
  size_eq := rfl
  size_slots := Array.size_replicate
  listed _ h := absurd h List.not_mem_nil
  resolves _ h := absurd h List.not_mem_nil
  apart _ h := absurd h List.not_mem_nil
  taken slot := by
    constructor
    · intro h
      exact absurd h Std.TreeSet.not_mem_emptyc
    · rintro ⟨e, h, -⟩
      exact absurd h List.not_mem_nil
  inside _ h := absurd h Std.TreeSet.not_mem_emptyc
  fits b r h := by simp [start] at h

theorem perfect_of_build {names : List Bytes} {size : Nat} {maxSeed : Int32} {a : Assignment}
    (h : build names size maxSeed = .ok a) : a.Perfect names size := by
  rw [build] at h
  split at h
  · cases h
  split at h
  · cases h
  next room few =>
  have room : names.length ≤ size := by omega
  obtain ⟨p, first, h⟩ := bind_eq_ok.1 h
  obtain ⟨q, second, h⟩ := bind_eq_ok.1 h
  cases h
  have seeds : maxSeed.toInt.toNat ≤ maxBuckets := by
    have : maxSeed.toInt ≤ 0x7FFFFFFF := maxSeed.toInt_le
    unfold maxBuckets
    omega
  have grouped := (Progress.sound_start names size).placeGroups seeds _
    (fun g hg => by
      obtain ⟨all, some⟩ := getElem?_buckets.1 (mem_groups.1 hg).1
      exact ⟨all, lt_size_of_inBucket room (all ▸ some), List.not_mem_nil⟩)
    (groups_pairwise _) first
  rw [List.nil_append] at grouped
  have sound := grouped.placeSingles _ (Nat.zero_le _)
    (fun s hs => by
      obtain ⟨name, single⟩ := mem_singles.1 hs
      obtain ⟨all, some⟩ := getElem?_buckets.1 single
      refine ⟨⟨name, all.symm⟩, lt_size_of_inBucket room (all ▸ some), ?_⟩
      -- A bucket with one name is none of those with several.
      intro hb
      obtain ⟨g, hg, same⟩ := List.mem_map.1 hb
      obtain ⟨group, several⟩ := mem_groups.1 hg
      rw [same, single] at group
      rw [← Option.some.inj group] at several
      exact absurd several (Nat.lt_irrefl 1))
    (singles_pairwise _) second
  have placed (e : Entry) (listed : names[e.1]? = some e.2) : e ∈ inBuckets names size _ :=
    inBuckets_covers listed
  refine ⟨sound.size_eq, sound.size_slots, room, by omega, ?_, ?_, sound.fits⟩
  · intro e listed
    obtain ⟨slot, resolves⟩ := sound.resolves e (placed e listed)
    exact ⟨slot, sound.inside slot ((sound.taken slot).2 ⟨e, placed e listed, resolves.given⟩),
      resolves⟩
  · intro i j slot hi hj
    have listed (k : Nat) (hk : q.slots[k]? = some slot) : ∃ name, names[k]? = some name := by
      obtain ⟨hk, -⟩ := Array.getElem?_eq_some_iff.1 hk
      exact ⟨_, List.getElem?_eq_getElem (sound.size_slots ▸ hk)⟩
    obtain ⟨name, hname⟩ := listed i hi
    obtain ⟨name', hname'⟩ := listed j hj
    exact sound.apart (i, name) (placed _ hname) (j, name') (placed _ hname') (hi.trans hj.symm)

end Assignment

end ResourceArchive
