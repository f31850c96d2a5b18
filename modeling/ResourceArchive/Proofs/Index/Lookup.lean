import ResourceArchive.Proofs.Index.Placement

/-! Looking names up in the tables of an assignment. `Tables.Holds` says what two tables hold, wherever
    they are stored; from it and `Assignment.Perfect` follows what every lookup gives: a name that was
    placed leads to its own record, and any other name to some slot or to none, but never to an error. -/

namespace ResourceArchive

/-! ### Stored tables -/

theorem Redirect.ofWord_toWord {size : Nat} {r : Redirect} (fits : r.Fits size)
    (few : size ≤ maxBuckets) : ofWord r.toWord = r := by
  unfold maxBuckets at few
  have word (v : Int) (low : -2 ^ 31 ≤ v) (high : v < 2 ^ 31) (same : r.toInt = v) :
      ofWord r.toWord = ofInt v := by
    rw [ofWord, toWord, Int32.toInt32_toUInt32, same, Int32.toInt_ofInt_of_le low high]
  cases r with
  | empty => rfl
  | direct slot =>
    have fits : slot < size := fits
    rw [word (-slot - 1) (by omega) (by omega) rfl, ofInt, if_neg (by omega), if_pos (by omega)]
    congr 1
    omega
  | seeded seed =>
    obtain ⟨positive, small⟩ : 0 < seed ∧ seed ≤ maxBuckets := fits
    unfold maxBuckets at small
    rw [word seed (by omega) (by omega) rfl, ofInt, if_neg (by omega), if_neg (by omega),
      Int.toNat_natCast]

namespace WordTable

theorem flatMap_runs_length (o : ByteOrder) (size i : Nat) (entries : List (Nat × UInt32))
    (ascending : entries.Pairwise (·.1 < ·.1)) (inside : ∀ e ∈ entries, i ≤ e.1 ∧ e.1 < size) :
    ((runs o size i entries).flatMap Run.toBytes).length = 4 * (size - i) := by
  induction entries generalizing i with
  | nil => simp [runs, Run.toBytes]
  | cons e rest ih =>
    obtain ⟨j, w⟩ := e
    obtain ⟨later, ascending⟩ := List.pairwise_cons.1 ascending
    have here : i ≤ j ∧ j < size := inside (j, w) (.head _)
    have ih := ih (j + 1) ascending fun e h => ⟨later e h, (inside e (.tail _ h)).2⟩
    simp only [runs, List.flatMap_cons, Run.toBytes, List.length_append, List.length_replicate,
      o.encode32_length, ih]
    omega

/-- A table takes up four bytes for each of its words, also for those that are zero. -/
theorem ofEntries_length (o : ByteOrder) (size : Nat) (entries : Std.TreeMap Nat UInt32)
    (inside : ∀ i ∈ entries, i < size) : (ofEntries o size entries).content.length = 4 * size := by
  have length := flatMap_runs_length o size 0 entries.toList
    (entries.ordered_keys_toList.imp Nat.compare_eq_lt.1) fun e he =>
      ⟨Nat.zero_le _, inside _ (Std.TreeMap.mem_iff_isSome_getElem?.2 (by
        rw [Std.TreeMap.mem_toList_iff_getElem?_eq_some.1 he]; rfl))⟩
  rw [← Content.toBytes_length, toBytes_ofEntries]
  exact length

end WordTable

/-- Two tables hold the redirects of an assignment, and in its slots the offsets of the records. -/
structure Tables.Holds (t : Tables) (a : Assignment) (offsets : List UInt32) : Prop where
  size_eq : t.size = a.size
  redirect : ∀ b < a.size, t.redirect b = .ok (a.redirect b)
  given : ∀ (i slot : Nat) (offset : UInt32), a.slots[i]? = some slot → offsets[i]? = some offset →
    t.offset slot = .ok offset
  free : ∀ slot < a.size, slot ∉ a.slots → t.offset slot = .ok 0

namespace Assignment

variable {names : List Bytes} {size : Nat} {a : Assignment} {offsets : List UInt32} {t : Tables}

theorem Perfect.redirect_fits (h : a.Perfect names size) (b : Nat) : (a.redirect b).Fits size := by
  rw [redirect, Std.TreeMap.getD_eq_getD_getElem?]
  rcases hr : a.redirects[b]? with _ | r
  · trivial
  · exact (h.fits b r hr).2

theorem Perfect.given (h : a.Perfect names size) {i : Nat} (hi : i < names.length) :
    ∃ slot < size, a.Resolves (i, names[i]) slot :=
  h.resolves (i, names[i]) (List.getElem?_eq_getElem hi)

/-- A name that comes twice would have two slots, and lead to both. -/
theorem Perfect.nodup (h : a.Perfect names size) : names.Nodup := by
  rw [List.Nodup, List.pairwise_iff_getElem]
  intro i j hi hj before same
  obtain ⟨slot, -, first⟩ := h.given hi
  obtain ⟨slot', -, second⟩ := h.given hj
  have alike : slot = slot' := by
    have leads := first.leads
    rw [same, second.leads] at leads
    exact (Option.some.inj leads).symm
  exact absurd (h.apart i j slot first.given (alike ▸ second.given)) (by omega)

theorem Perfect.slot_lt (h : a.Perfect names size) {slot : Nat} (hs : slot ∈ a.slots) :
    slot < size := by
  obtain ⟨i, hi, rfl⟩ := Array.mem_iff_getElem.1 hs
  obtain ⟨slot, inside, resolves⟩ := h.given (h.size_slots ▸ hi)
  rw [Option.some.inj ((Array.getElem?_eq_getElem hi).symm.trans resolves.given)]
  exact inside

theorem Perfect.slots_nodup (h : a.Perfect names size) : a.slots.toList.Nodup := by
  rw [List.Nodup, List.pairwise_iff_getElem]
  intro i j hi hj before same
  rw [Array.getElem_toList, Array.getElem_toList] at same
  have first : a.slots[i]? = some _ := Array.getElem?_eq_getElem hi
  have second : a.slots[j]? = some _ := Array.getElem?_eq_getElem hj
  exact absurd (h.apart i j _ first (same ▸ second)) (by omega)

/-! ### What the tables hold -/

theorem Perfect.redirect_lt (h : a.Perfect names size) {b : Nat} (hb : b ∈ a.redirects) : b < size :=
  (h.fits b _ (Std.TreeMap.getElem?_eq_some_getElem hb)).1

theorem Perfect.getElem?_redirectTable (h : a.Perfect names size) (o : ByteOrder) {b : Nat}
    (hb : b < size) : (a.redirectTable o).get? b = some (a.redirect b).toWord := by
  have inside : ∀ i ∈ a.redirects.map fun _ r => r.toWord, i < a.size := fun i hi =>
    h.size_eq ▸ h.redirect_lt (Std.TreeMap.mem_map.1 hi)
  rw [redirectTable, WordTable.get?_ofEntries _ _ _ inside, if_pos (h.size_eq ▸ hb),
    Std.TreeMap.getElem?_map, redirect, Std.TreeMap.getD_eq_getD_getElem?]
  rcases a.redirects[b]? with _ | r <;> rfl

theorem mem_slots_of_mem_filled {slot : Nat} (hs : slot ∈ a.filled offsets) : slot ∈ a.slots := by
  rw [filled, Std.TreeMap.mem_ofList, List.contains_iff_mem] at hs
  obtain ⟨⟨_, offset⟩, hzip, rfl⟩ := List.mem_map.1 hs
  exact Array.mem_toList_iff.1 (List.of_mem_zip hzip).1

theorem Perfect.filled_given (h : a.Perfect names size) {i slot : Nat} {offset : UInt32}
    (hs : a.slots[i]? = some slot) (ho : offsets[i]? = some offset) :
    (a.filled offsets)[slot]? = some offset := by
  have distinct : (a.slots.toList.zip offsets).Pairwise fun x y => ¬compare x.1 y.1 = .eq := by
    rw [List.pairwise_iff_getElem]
    intro i j hi hj before same
    rw [List.length_zip] at hi hj
    rw [List.getElem_zip, List.getElem_zip, Nat.compare_eq_eq] at same
    exact List.pairwise_iff_getElem.1 h.slots_nodup i j (by omega) (by omega) before same
  have mem : (slot, offset) ∈ a.slots.toList.zip offsets := by
    refine List.mem_iff_getElem?.2 ⟨i, ?_⟩
    rw [List.getElem?_zip_eq_some, Array.getElem?_toList]
    exact ⟨hs, ho⟩
  exact Std.TreeMap.getElem?_ofList_of_mem (Nat.compare_eq_eq.2 rfl) distinct mem

theorem Perfect.getElem?_offsetTable (h : a.Perfect names size) (o : ByteOrder) {slot : Nat}
    (hs : slot < size) :
    (a.offsetTable offsets o).get? slot = some ((a.filled offsets)[slot]?.getD 0) := by
  have inside : ∀ i ∈ a.filled offsets, i < a.size := fun i hi =>
    h.size_eq ▸ h.slot_lt (mem_slots_of_mem_filled hi)
  rw [offsetTable, WordTable.get?_ofEntries _ _ _ inside, if_pos (h.size_eq ▸ hs)]

/-- Tables with the words of an assignment's tables hold the assignment. -/
theorem Perfect.holds (h : a.Perfect names size) {o : ByteOrder} (hsize : t.size = size)
    (redirects : ∀ b < size, t.redirects.get? b = (a.redirectTable o).get? b)
    (slots : ∀ s < size, t.offsets.get? s = (a.offsetTable offsets o).get? s) :
    t.Holds a offsets where
  size_eq := hsize.trans h.size_eq.symm
  redirect b hb := by
    have hb := h.size_eq ▸ hb
    rw [Tables.redirect, redirects b hb, h.getElem?_redirectTable o hb]
    exact congrArg _ (Redirect.ofWord_toWord (h.redirect_fits b) h.size_le)
  given i slot offset hs ho := by
    have inside := h.slot_lt (Array.mem_of_getElem? hs)
    rw [Tables.offset, slots slot inside, h.getElem?_offsetTable o inside, h.filled_given hs ho]
    rfl
  free slot hs free := by
    have hs := h.size_eq ▸ hs
    rw [Tables.offset, slots slot hs, h.getElem?_offsetTable o hs,
      Std.TreeMap.getElem?_eq_none fun hf => free (mem_slots_of_mem_filled hf)]
    rfl

theorem Perfect.redirectTable_length (h : a.Perfect names size) (o : ByteOrder) :
    (a.redirectTable o).content.length = 4 * size := by
  rw [redirectTable, WordTable.ofEntries_length _ _ _ fun i hi =>
    h.size_eq ▸ h.redirect_lt (Std.TreeMap.mem_map.1 hi), h.size_eq]

theorem Perfect.offsetTable_length (h : a.Perfect names size) (offsets : List UInt32) (o : ByteOrder) :
    (a.offsetTable offsets o).content.length = 4 * size := by
  rw [offsetTable, WordTable.ofEntries_length _ _ _ fun i hi =>
    h.size_eq ▸ h.slot_lt (mem_slots_of_mem_filled hi), h.size_eq]

/-- The tables are taken back as they were stored, and hold the assignment. -/
theorem Perfect.holds_ofContents (h : a.Perfect names size) (offsets : List UInt32) (o : ByteOrder) :
    ∃ t, Tables.ofContents (a.redirectTable o).content (a.offsetTable offsets o).content size o = .ok t
      ∧ t.Holds a offsets := by
  refine ⟨_, if_pos ⟨h.redirectTable_length o, h.offsetTable_length offsets o⟩, ?_⟩
  exact h.holds (o := o) rfl (fun _ _ => rfl) (fun _ _ => rfl)

/-! ### What a lookup gives -/

/-- Looking a name up follows the redirect of its bucket, and stays inside the table. -/
theorem Perfect.candidateSlot_eq (h : a.Perfect names size) (held : t.Holds a offsets) (name : Bytes) :
    t.candidateSlot name = .ok ((a.redirect (Hash.bucket name size)).slot? name size)
      ∧ ∀ slot ∈ (a.redirect (Hash.bucket name size)).slot? name size, slot < size := by
  have size_eq : t.size = size := held.size_eq.trans h.size_eq
  rcases Nat.eq_zero_or_pos size with rfl | positive
  · -- A table without buckets has no redirects.
    have none : a.redirect (Hash.bucket name 0) = .empty := by
      rw [redirect, Std.TreeMap.getD_eq_fallback fun hb => absurd (h.redirect_lt hb) (Nat.not_lt_zero _)]
    rw [Tables.candidateSlot, if_pos size_eq, none]
    refine ⟨rfl, ?_⟩
    intro slot hs
    cases hs
  have inside : ∀ slot ∈ (a.redirect (Hash.bucket name size)).slot? name size, slot < size := by
    have fits := h.redirect_fits (Hash.bucket name size)
    intro slot hs
    rcases hr : a.redirect (Hash.bucket name size) with _ | s | seed <;> rw [hr] at hs fits
    · cases hs
    · cases hs; exact fits
    · cases hs; exact Hash.slot_lt _ _ positive
  refine ⟨?_, inside⟩
  rw [Tables.candidateSlot, if_neg (by omega), size_eq]
  refine bind_eq_ok.2 ⟨_, held.redirect _ (h.size_eq.symm ▸ Hash.bucket_lt name positive), ?_⟩
  rcases hs : (a.redirect (Hash.bucket name size)).slot? name size with _ | slot
  · rfl
  · simp only [if_pos (inside slot hs)]
    rfl

theorem Perfect.candidateSlot_given (h : a.Perfect names size) (held : t.Holds a offsets) {i : Nat}
    (hi : i < names.length) :
    ∃ slot, a.slots[i]? = some slot ∧ t.candidateSlot names[i] = .ok (some slot) := by
  obtain ⟨slot, -, given, leads⟩ := h.given hi
  rw [h.size_eq] at leads
  exact ⟨slot, given, by rw [(h.candidateSlot_eq held _).1, leads]⟩

theorem Perfect.candidateOffset_given (h : a.Perfect names size) (held : t.Holds a offsets)
    {i : Nat} {offset : UInt32} (hi : i < names.length) (ho : offsets[i]? = some offset) :
    t.candidateOffset names[i] = .ok (some offset) := by
  obtain ⟨slot, given, found⟩ := h.candidateSlot_given held hi
  simp only [Tables.candidateOffset, found, ok_bind, held.given i slot offset given ho, ok_map]

/-- Whatever the name, the tables lead to a record that was given, to the offset of an empty slot, or
    nowhere. -/
theorem Perfect.candidateOffset_any (h : a.Perfect names size) (held : t.Holds a offsets)
    (length : offsets.length = names.length) (name : Bytes) :
    ∃ found, t.candidateOffset name = .ok found ∧ ∀ offset ∈ found, offset ∈ offsets ∨ offset = 0 := by
  obtain ⟨found, inside⟩ := h.candidateSlot_eq held name
  rw [Tables.candidateOffset, found]
  generalize (a.redirect (Hash.bucket name size)).slot? name size = target at inside
  rcases target with _ | slot
  · refine ⟨none, rfl, ?_⟩
    intro offset ho
    cases ho
  simp only [ok_bind]
  by_cases used : slot ∈ a.slots
  · obtain ⟨i, hi, given⟩ := Array.mem_iff_getElem?.1 used |>.imp fun i hi =>
      (⟨h.size_slots ▸ (Array.getElem?_eq_some_iff.1 hi).1, hi⟩ : i < names.length ∧ _)
    have ho := List.getElem?_eq_getElem (l := offsets) (length.symm ▸ hi)
    rw [held.given i slot _ given ho]
    exact ⟨_, rfl, fun _ same => .inl (Option.some.inj same ▸ List.getElem_mem _)⟩
  · rw [held.free slot (h.size_eq.symm ▸ inside slot rfl) used]
    exact ⟨_, rfl, fun _ same => .inr (Option.some.inj same).symm⟩

/-- An index that could be built leads every name to a slot of its own, and from there to its record;
    the slots without names lead to offset 0, and no name leads to an error. -/
theorem lookup_of_build {names : List Bytes} {size : Nat} {maxSeed : Int32} {a : Assignment}
    (h : build names size maxSeed = .ok a) :
    names.Nodup
    ∧ a.size = size ∧ (∀ b ∈ a.redirects, b < size)
    ∧ a.slots.size = names.length ∧ a.slots.toList.Nodup ∧ (∀ slot ∈ a.slots, slot < size)
    ∧ ∀ (o : ByteOrder) (offsets : List UInt32), offsets.length = names.length →
      ∃ t, Tables.ofContents (a.redirectTable o).content (a.offsetTable offsets o).content size o = .ok t
        ∧ (∀ b < size, t.redirect b = .ok (a.redirect b))
        ∧ (∀ i (hi : i < names.length), ∃ slot offset,
            a.slots[i]? = some slot ∧ offsets[i]? = some offset
            ∧ t.candidateSlot names[i] = .ok (some slot)
            ∧ t.candidateOffset names[i] = .ok (some offset))
        ∧ (∀ slot < size, slot ∉ a.slots → t.offset slot = .ok 0)
        ∧ ∀ name, ∃ found, t.candidateSlot name = .ok found ∧ ∀ slot ∈ found, slot < size := by
  have perfect := perfect_of_build h
  refine ⟨perfect.nodup, perfect.size_eq, fun b => perfect.redirect_lt, perfect.size_slots,
    perfect.slots_nodup, fun slot => perfect.slot_lt, ?_⟩
  intro o offsets length
  obtain ⟨t, taken, held⟩ := perfect.holds_ofContents offsets o
  refine ⟨t, taken, perfect.size_eq ▸ held.redirect, ?_, perfect.size_eq ▸ held.free,
    fun name => ⟨_, perfect.candidateSlot_eq held name⟩⟩
  intro i hi
  obtain ⟨slot, given, found⟩ := perfect.candidateSlot_given held hi
  have ho := List.getElem?_eq_getElem (l := offsets) (length.symm ▸ hi)
  exact ⟨slot, _, given, ho, found, perfect.candidateOffset_given held hi ho⟩

/-- Three names in three slots: two of them share a bucket and need a seed. -/
theorem lookup_of_build_three :
    ∃ a, build [[0x61], [0x62], [0x63]] 3 100 = .ok a
      ∧ ∃ t, Tables.ofContents (a.redirectTable .big).content (a.offsetTable [7, 8, 9] .big).content 3
          .big = .ok t
        ∧ t.candidateOffset [0x62] = .ok (some 8)
        ∧ ∃ found, t.candidateSlot [0x64] = .ok found ∧ ∀ slot ∈ found, slot < 3 := by
  obtain ⟨a, h⟩ : ∃ a, build [[0x61], [0x62], [0x63]] 3 100 = .ok a := eq_ok_of_isOk (by decide)
  obtain ⟨-, -, -, -, -, -, tables⟩ := lookup_of_build h
  obtain ⟨t, taken, -, given, -, any⟩ := tables .big [7, 8, 9] rfl
  obtain ⟨slot, offset, -, ho, -, found⟩ := given 1 (by decide)
  cases ho
  exact ⟨a, h, t, taken, found, any [0x64]⟩

end Assignment

end ResourceArchive
