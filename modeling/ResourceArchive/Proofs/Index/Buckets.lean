import Mathlib.Data.List.Basic
import ResourceArchive.Index.Assignment

/-! How names are sorted before they are given slots. Every name is in the group of its bucket, and the
    buckets that have names fall into those with several (`groups`) and those with one (`singles`),
    none of which is listed twice. -/

namespace ResourceArchive.Assignment

/-- The names that have a bucket, with their places, in the order of the list. -/
def inBucket (names : List Bytes) (size bucket : Nat) : List Entry :=
  (entries names).filter (Hash.bucket ·.2 size = bucket)

theorem mem_entries {names : List Bytes} {e : Entry} :
    e ∈ entries names ↔ names[e.1]? = some e.2 := by
  obtain ⟨i, name⟩ := e
  simp only [entries, List.mem_map, Prod.exists, List.mem_zipIdx_iff_getElem?, Prod.swap_prod_mk,
    Prod.mk.injEq]
  constructor
  · rintro ⟨_, _, h, rfl, rfl⟩
    exact h
  · intro h
    exact ⟨name, i, h, rfl, rfl⟩

/-- A name is listed by its place, so no entry is listed twice. -/
theorem entries_pairwise (names : List Bytes) :
    (entries names).Pairwise fun e f => e.1 ≠ f.1 := by
  have places : (names.zipIdx.map Prod.snd).Nodup := by
    rw [List.zipIdx_map_snd]
    exact List.nodup_range'
  rw [entries, List.pairwise_map]
  exact List.pairwise_map.1 places

theorem mem_inBucket {names : List Bytes} {size bucket : Nat} {e : Entry} :
    e ∈ inBucket names size bucket ↔ names[e.1]? = some e.2 ∧ Hash.bucket e.2 size = bucket := by
  rw [inBucket, List.mem_filter, mem_entries, decide_eq_true_iff]

theorem inBucket_pairwise (names : List Bytes) (size bucket : Nat) :
    (inBucket names size bucket).Pairwise fun e f => e.1 ≠ f.1 :=
  (entries_pairwise names).filter _

/-- The names that have a bucket, in the order of the list. -/
def namesIn (names : List Bytes) (size bucket : Nat) : List Bytes :=
  names.filter (Hash.bucket · size = bucket)

theorem map_inBucket (names : List Bytes) (size bucket : Nat) :
    (inBucket names size bucket).map (·.2) = namesIn names size bucket := by
  have listed : (entries names).map (·.2) = names := by
    rw [entries, List.map_map]
    exact List.zipIdx_map_fst 0 names
  calc (inBucket names size bucket).map (·.2)
      = ((entries names).map (·.2)).filter (Hash.bucket · size = bucket) := by
        rw [List.filter_map]
        rfl
    _ = namesIn names size bucket := by rw [listed, namesIn]

theorem inBucket_length (names : List Bytes) (size bucket : Nat) :
    (inBucket names size bucket).length = (namesIn names size bucket).length := by
  rw [← map_inBucket, List.length_map]

theorem getElem?_put (size bucket : Nat) (e : Entry) (table : Buckets) :
    (Buckets.put size e table)[bucket]?
      = if Hash.bucket e.2 size = bucket then some (e :: table[bucket]?.getD [])
        else table[bucket]? := by
  simp only [Buckets.put, Std.TreeMap.getElem?_insert, Nat.compare_eq_eq,
    Std.TreeMap.getD_eq_getD_getElem?]
  split
  · next h => rw [h]
  · rfl

/-- The group of a bucket is all of its names; a bucket without names has no group. -/
theorem getElem?_buckets {names : List Bytes} {size bucket : Nat} {group : List Entry} :
    (buckets names size)[bucket]? = some group
      ↔ group = inBucket names size bucket ∧ group ≠ [] := by
  rw [buckets, inBucket]
  induction entries names generalizing group with
  | nil => simp
  | cons e rest ih =>
    have held : ((rest.foldr (Buckets.put size) {})[bucket]?).getD []
        = rest.filter (Hash.bucket ·.2 size = bucket) := by
      rcases h : (rest.foldr (Buckets.put size) {})[bucket]? with _ | group
      · by_contra absent
        have := ih.2 ⟨rfl, fun empty => absent empty.symm⟩
        rw [h] at this
        cases this
      · exact (ih.1 h).1
    rw [List.foldr_cons, getElem?_put, List.filter_cons]
    by_cases h : Hash.bucket e.2 size = bucket
    · rw [if_pos h, if_pos (by simpa using h), held, Option.some.injEq]
      constructor
      · rintro rfl
        exact ⟨rfl, List.cons_ne_nil _ _⟩
      · rintro ⟨rfl, -⟩
        rfl
    · rw [if_neg h, if_neg (by simpa using h)]
      exact ih

section Order

variable {table : Buckets} {bucket : Nat} {group : List Entry}

theorem mem_crowded : (bucket, group) ∈ table.toList.filter (1 < ·.2.length)
    ↔ table[bucket]? = some group ∧ 1 < group.length := by
  rw [List.mem_filter, Std.TreeMap.mem_toList_iff_getElem?_eq_some, decide_eq_true_iff]

theorem mem_groups :
    (bucket, group) ∈ groups table ↔ table[bucket]? = some group ∧ 1 < group.length := by
  rw [groups, List.mem_flatMap]
  constructor
  · rintro ⟨size, -, h⟩
    exact mem_crowded.1 (List.mem_filter.1 h).1
  · intro h
    have h := mem_crowded.2 h
    refine ⟨group.length, ?_, List.mem_filter.2 ⟨h, beq_self_eq_true _⟩⟩
    rw [List.mem_reverse, Std.TreeSet.mem_toList, Std.TreeSet.mem_ofList, List.contains_iff_mem]
    exact List.mem_map.2 ⟨_, h, rfl⟩

/-- The groups are listed from the largest down, and those of a size by the numbers of their buckets. -/
theorem groups_ordered (table : Buckets) : (groups table).Pairwise fun b c =>
    c.2.length < b.2.length ∨ b.2.length = c.2.length ∧ b.1 < c.1 := by
  rw [groups, List.pairwise_flatMap, List.pairwise_reverse]
  constructor
  · intro size _
    have ascending : table.toList.Pairwise fun b c => b.1 < c.1 :=
      table.ordered_keys_toList.imp Nat.compare_eq_lt.1
    refine ((ascending.filter _).filter _).imp_of_mem ?_
    intro b c hb hc less
    have first := eq_of_beq (List.mem_filter.1 hb).2
    have second := eq_of_beq (List.mem_filter.1 hc).2
    exact .inr ⟨first.trans second.symm, less⟩
  · refine Std.TreeSet.ordered_toList.imp ?_
    intro m n less b hb c hc
    rw [eq_of_beq (List.mem_filter.1 hb).2, eq_of_beq (List.mem_filter.1 hc).2]
    exact .inl (Nat.compare_eq_lt.1 less)

/-- A bucket gets a seed once. -/
theorem groups_pairwise (table : Buckets) : (groups table).Pairwise fun b c => b.1 ≠ c.1 := by
  refine (groups_ordered table).imp_of_mem ?_
  rintro ⟨i, g⟩ ⟨j, g'⟩ hb hc listed same
  -- One bucket has one group, so it does not come again with another size.
  cases (show i = j from same)
  cases Option.some.inj ((mem_groups.1 hb).1.symm.trans (mem_groups.1 hc).1)
  omega

theorem mem_singles {place : Nat} :
    (bucket, place) ∈ singles table ↔ ∃ name, table[bucket]? = some [(place, name)] := by
  simp only [singles, List.mem_filterMap, Prod.exists, Std.TreeMap.mem_toList_iff_getElem?_eq_some]
  constructor
  · rintro ⟨b, group, h, alone⟩
    split at alone
    · next name same =>
      cases same
      cases alone
      exact ⟨name, h⟩
    · cases alone
  · rintro ⟨name, h⟩
    exact ⟨bucket, [(place, name)], h, rfl⟩

/-- The buckets with one name are listed by number. -/
theorem singles_ascending (table : Buckets) : (singles table).Pairwise fun b c => b.1 < c.1 := by
  have ascending : table.toList.Pairwise fun b c => b.1 < c.1 :=
    table.ordered_keys_toList.imp Nat.compare_eq_lt.1
  refine List.Pairwise.filterMap _ ?_ ascending
  intro b b' less c hc c' hc'
  split at hc
  · cases hc
    split at hc'
    · cases hc'
      exact less
    · cases hc'
  · cases hc

theorem singles_pairwise (table : Buckets) : (singles table).Pairwise fun b c => b.1 ≠ c.1 :=
  (singles_ascending table).imp Nat.ne_of_lt

end Order

end ResourceArchive.Assignment
