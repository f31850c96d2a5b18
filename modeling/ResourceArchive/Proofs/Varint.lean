import Mathlib.Data.Nat.Digits.Lemmas
import ResourceArchive.Varint

/-! Numerals: the bytes that stand for a number of up to 64 bits. Reading takes a numeral off the front
    of some bytes, whatever follows it, and gives its whole value. Bytes that do not begin with a numeral
    end before a number does, or begin with one that has too many bits. Of the numerals of a number the
    one that is written is a shortest. -/

namespace ResourceArchive.Varint

/-- The number that groups of seven bits make up, lowest group first. -/
def value (bs : Bytes) : Nat := Nat.ofDigits 128 (bs.map fun b => b.toNat % 128)

/-- Bytes that stand for a number: the last is the only one without the high bit, and if it is the tenth,
    it holds no more than the last bit of the 64. -/
structure IsNumeral (more : Bytes) (last : UInt8) : Prop where
  goesOn : ∀ b ∈ more, 128 ≤ b
  ends : last < 128
  few : more.length < maxLength
  fits : more.length + 1 = maxLength → last ≤ 1

theorem value_append (xs ys : Bytes) : value (xs ++ ys) = value xs + 128 ^ xs.length * value ys := by
  rw [value, List.map_append, Nat.ofDigits_append, List.length_map]
  rfl

theorem value_cons (b : UInt8) (bs : Bytes) : value (b :: bs) = b.toNat % 128 + 128 * value bs :=
  Nat.ofDigits_cons

theorem value_singleton {b : UInt8} (h : b < 128) : value [b] = b.toNat :=
  (Nat.ofDigits_singleton ..).trans (Nat.mod_eq_of_lt (UInt8.lt_iff_toNat_lt.1 h))

theorem value_lt (bs : Bytes) : value bs < 128 ^ bs.length := by
  have groups : ∀ g ∈ bs.map fun b => b.toNat % 128, g < 128 := by
    intro g hg
    obtain ⟨b, -, rfl⟩ := List.mem_map.1 hg
    exact Nat.mod_lt _ (by decide)
  have bound := Nat.ofDigits_lt_base_pow_length (by decide) groups
  rwa [List.length_map] at bound

theorem value_concat (more : Bytes) {last : UInt8} (h : last < 128) :
    value (more ++ [last]) = value more + 128 ^ more.length * last.toNat := by
  rw [value_append, value_singleton h]

/-- No bit of a numeral is lost in a word of 64. -/
theorem IsNumeral.value_lt {more : Bytes} {last : UInt8} (h : IsNumeral more last) :
    value (more ++ [last]) < 2 ^ 64 := by
  have few : more.length < 10 := h.few
  have low := Varint.value_lt more
  have high : last.toNat < 128 := UInt8.lt_iff_toNat_lt.1 h.ends
  rw [value_concat more h.ends]
  rcases Nat.lt_or_ge more.length 9 with short | long
  · have power : 128 ^ more.length ≤ 128 ^ 8 := Nat.pow_le_pow_right (by decide) (by omega)
    have top : 128 ^ more.length * last.toNat ≤ 128 ^ 8 * 127 := Nat.mul_le_mul power (by omega)
    omega
  · have tenth : more.length = 9 := by omega
    have bit : last.toNat ≤ 1 := UInt8.le_iff_toNat_le.1 (h.fits (by rw [tenth]; rfl))
    rw [tenth] at low ⊢
    omega

/-! ### Reading -/

/-- Bytes with the high bit are passed over, and their groups are lower than those that follow. -/
theorem readGroups_append_of_goesOn {i : Nat} {more : Bytes} (goesOn : ∀ b ∈ more, 128 ≤ b)
    (few : i + more.length ≤ 9) (bs : Bytes) :
    readGroups i (more ++ bs)
      = ((readGroups (i + more.length) bs).1.map fun n => value more + 128 ^ more.length * n,
        (readGroups (i + more.length) bs).2) := by
  induction more generalizing i with
  | nil =>
    simp only [List.nil_append, List.length_nil, Nat.add_zero, value, List.map_nil, Nat.ofDigits_nil,
      Nat.pow_zero, Nat.zero_add, Nat.one_mul]
    rcases readGroups i bs with ⟨_ | _, _⟩ <;> rfl
  | cons b more ih =>
    obtain ⟨high, goesOn⟩ := List.forall_mem_cons.1 goesOn
    have few : i + 1 + more.length ≤ 9 := by
      rw [List.length_cons] at few
      omega
    have later : i + (b :: more).length = i + 1 + more.length := by
      rw [List.length_cons]
      omega
    rw [List.cons_append, readGroups, if_neg (by omega), if_neg (UInt8.not_lt.2 high), ih goesOn few,
      later]
    rcases readGroups (i + 1 + more.length) bs with ⟨_ | n, rest⟩
    · rfl
    · simp only [Except.map, value_cons, List.length_cons]
      congr 2
      ring

variable {more : Bytes} {last : UInt8}

theorem read_numeral (h : IsNumeral more last) (rest : Bytes) :
    read (more ++ last :: rest) = (.ok (.ofNat (value (more ++ [last]))), rest) := by
  have few : 0 + more.length ≤ 9 := by
    have few : more.length < 10 := h.few
    omega
  have allowed : ¬(9 ≤ 0 + more.length ∧ 1 < last) := by
    rintro ⟨tenth, large⟩
    exact UInt8.not_lt.2 (h.fits (by rw [maxLength]; omega)) large
  rw [read, readGroups_append_of_goesOn h.goesOn few, readGroups, if_neg allowed, if_pos h.ends,
    value_concat more h.ends]
  rfl

theorem read_cut {bs : Bytes} (goesOn : ∀ b ∈ bs, 128 ≤ b) (short : bs.length < maxLength) :
    read bs = (.error (.corrupt .recordTruncated), []) := by
  have few : 0 + bs.length ≤ 9 := by
    have short : bs.length < 10 := short
    omega
  have h := readGroups_append_of_goesOn goesOn few []
  rw [List.append_nil, readGroups] at h
  rw [read, h]
  rfl

theorem read_overlong (goesOn : ∀ b ∈ more, 128 ≤ b) (tenth : more.length + 1 = maxLength)
    (large : 1 < last) (rest : Bytes) :
    read (more ++ last :: rest) = (.error (.corrupt .varintOverflow), rest) := by
  have ninth : more.length = 9 := by
    have tenth : more.length + 1 = 10 := tenth
    omega
  rw [read, readGroups_append_of_goesOn goesOn (by omega), readGroups,
    if_pos ⟨by omega, large⟩]
  rfl

/-- What bytes can begin with, where a number is looked for. -/
inductive Front : Bytes → Prop
  | numeral {more : Bytes} {last : UInt8} (h : IsNumeral more last) (rest : Bytes) :
    Front (more ++ last :: rest)
  /-- The bytes end before the number does. -/
  | cut {bs : Bytes} (goesOn : ∀ b ∈ bs, 128 ≤ b) (short : bs.length < maxLength) : Front bs
  /-- The tenth byte has bits for which there is no room. -/
  | overlong {more : Bytes} {last : UInt8} (goesOn : ∀ b ∈ more, 128 ≤ b)
    (tenth : more.length + 1 = maxLength) (large : 1 < last) (rest : Bytes) :
    Front (more ++ last :: rest)

theorem front (bs : Bytes) : Front bs := by
  have whole := List.takeWhile_append_dropWhile (p := fun b : UInt8 => 128 ≤ b) (l := bs)
  have goesOn : ∀ b ∈ bs.takeWhile fun b : UInt8 => 128 ≤ b, 128 ≤ b := by
    intro b hb
    exact of_decide_eq_true (List.all_eq_true.1 List.all_takeWhile b hb)
  have stops := List.head?_dropWhile_not (fun b : UInt8 => decide (128 ≤ b)) bs
  generalize (bs.takeWhile fun b : UInt8 => 128 ≤ b) = more at whole goesOn
  generalize (bs.dropWhile fun b : UInt8 => 128 ≤ b) = behind at whole stops
  subst whole
  rcases Nat.lt_or_ge more.length maxLength with few | many
  · rcases behind with _ | ⟨last, rest⟩
    · rw [List.append_nil]
      exact .cut goesOn few
    · have ends : last < 128 := by simpa using stops
      by_cases large : more.length + 1 = maxLength ∧ 1 < last
      · exact .overlong goesOn large.1 large.2 rest
      · refine .numeral ⟨goesOn, ends, few, fun tenth => ?_⟩ rest
        exact UInt8.not_lt.1 fun above => large ⟨tenth, above⟩
  · -- Of ten bytes with the high bit the tenth is already too large.
    have many : 9 < more.length := many
    have split : more ++ behind = more.take 9 ++ more[9] :: (more.drop 10 ++ behind) := by
      rw [← List.cons_append, ← List.drop_eq_getElem_cons many, ← List.append_assoc,
        List.take_append_drop]
    rw [split]
    refine .overlong (fun b hb => goesOn b (List.mem_of_mem_take hb)) ?_ ?_ _
    · rw [List.length_take, maxLength]
      omega
    · have high := UInt8.le_iff_toNat_le.1 (goesOn _ (List.getElem_mem many))
      rw [UInt8.lt_iff_toNat_lt]
      exact Nat.lt_of_lt_of_le (by decide) high

/-- A numeral that is cut off is not read. -/
theorem read_take (h : IsNumeral more last) {k : Nat} (cut : k ≤ more.length) :
    read ((more ++ [last]).take k) = (.error (.corrupt .recordTruncated), []) := by
  rw [List.take_append_of_le_length cut]
  refine read_cut (fun b hb => h.goesOn b (List.mem_of_mem_take hb)) ?_
  rw [List.length_take]
  exact Nat.lt_of_le_of_lt (Nat.min_le_right ..) h.few

/-- Only numerals are read. -/
theorem read_eq_ok {data rest : Bytes} {v : UInt64} (h : read data = (.ok v, rest)) :
    ∃ more last, data = more ++ last :: rest ∧ IsNumeral more last
      ∧ v = .ofNat (value (more ++ [last])) := by
  cases front data with
  | numeral numeral behind =>
    rw [read_numeral numeral] at h
    cases h
    exact ⟨_, _, rfl, numeral, rfl⟩
  | cut goesOn short =>
    rw [read_cut goesOn short] at h
    cases h
  | overlong goesOn tenth large behind =>
    rw [read_overlong goesOn tenth large] at h
    cases h

/-! ### Writing -/

theorem toNat_group (n : Nat) : (UInt8.ofNat (n % 128 + 128)).toNat = n % 128 + 128 := by
  rw [UInt8.toNat_ofNat']
  omega

theorem toNat_last {n : Nat} (h : n < 128) : (UInt8.ofNat n).toNat = n := by
  rw [UInt8.toNat_ofNat']
  omega

theorem value_groups (n : Nat) : value (groups n) = n := by
  fun_induction groups n with
  | case1 n last =>
    have ends : UInt8.ofNat n < 128 := by
      rwa [UInt8.lt_iff_toNat_lt, toNat_last last]
    rw [value_singleton ends, toNat_last last]
  | case2 n more ih =>
    rw [value_cons, toNat_group, ih]
    omega

/-- The groups of a number are no more than it has bits for. -/
theorem groups_length_le {n k : Nat} (fits : n < 128 ^ (k + 1)) : (groups n).length ≤ k + 1 := by
  induction k generalizing n with
  | zero =>
    rw [groups, if_pos (by simpa using fits)]
    exact Nat.le_refl _
  | succ k ih =>
    rw [groups]
    split
    · exact Nat.le_add_left ..
    · refine Nat.succ_le_succ (ih ?_)
      rwa [Nat.div_lt_iff_lt_mul (by decide), ← Nat.pow_succ]

theorem exists_groups_eq (n : Nat) :
    ∃ more last, groups n = more ++ [last] ∧ (∀ b ∈ more, 128 ≤ b) ∧ last < 128 := by
  fun_induction groups n with
  | case1 n last =>
    refine ⟨[], _, rfl, by simp, ?_⟩
    rwa [UInt8.lt_iff_toNat_lt, toNat_last last]
  | case2 n _ ih =>
    obtain ⟨more, last, same, goesOn, ends⟩ := ih
    refine ⟨_ :: more, last, by rw [same, List.cons_append], ?_, ends⟩
    refine List.forall_mem_cons.2 ⟨?_, goesOn⟩
    rw [UInt8.le_iff_toNat_le, toNat_group]
    exact Nat.le_add_left ..

theorem encode_length_le (v : UInt64) : (encode v).length ≤ maxLength :=
  groups_length_le (Nat.lt_trans v.toNat_lt (by decide))

/-- A number is written as a numeral. -/
theorem exists_encode_eq (v : UInt64) :
    ∃ more last, encode v = more ++ [last] ∧ IsNumeral more last := by
  obtain ⟨more, last, same, goesOn, ends⟩ := exists_groups_eq v.toNat
  have same : encode v = more ++ [last] := same
  have few := encode_length_le v
  rw [same, List.length_append, List.length_singleton] at few
  refine ⟨more, last, same, goesOn, ends, few, fun tenth => ?_⟩
  have ninth : more.length = 9 := Nat.succ_injective tenth
  have whole : value more + 128 ^ 9 * last.toNat = v.toNat := by
    rw [← ninth, ← value_concat more ends, ← same]
    exact value_groups _
  have fits : v.toNat < 2 * 128 ^ 9 := v.toNat_lt
  rw [UInt8.le_iff_toNat_le]
  show last.toNat ≤ 1
  omega

/-- A number is read back as it was written, whatever follows. -/
theorem read_encode (v : UInt64) (rest : Bytes) : read (encode v ++ rest) = (.ok v, rest) := by
  obtain ⟨more, last, same, numeral⟩ := exists_encode_eq v
  have whole : value (more ++ [last]) = v.toNat := same ▸ value_groups _
  rw [same, List.append_assoc, List.singleton_append, read_numeral numeral, whole, UInt64.ofNat_toNat]

/-- No numeral of a number is shorter than the one that is written. -/
theorem encode_value_length_le {more : Bytes} {last : UInt8} (h : IsNumeral more last) :
    (encode (.ofNat (value (more ++ [last])))).length ≤ more.length + 1 := by
  rw [encode, UInt64.toNat_ofNat_of_lt' h.value_lt]
  refine groups_length_le ?_
  simpa using value_lt (more ++ [last])

end ResourceArchive.Varint
