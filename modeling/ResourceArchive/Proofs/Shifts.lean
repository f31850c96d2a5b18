import Mathlib.Data.Nat.Bitwise
import Mathlib.Tactic.Ring
import ResourceArchive.Proofs.Varint

/-! Numbers written and read by masks and shifts of one 64-bit word, behind other bytes and at a position
    of some data. A number has the same bytes when it is written so; when it is read so, the groups put
    into the word add up to its value, and no group is without a place. The main statement says at which
    positions a number is read, which one, and which position comes after. -/

namespace ResourceArchive.Varint

/-! ### Words -/

theorem toNat_shiftRight_seven (word : UInt64) : (word >>> 7).toNat = word.toNat / 128 := by
  rw [UInt64.toNat_shiftRight]
  exact Nat.shiftRight_eq_div_pow ..

theorem shiftRight_seven_eq_zero {word : UInt64} : word >>> 7 = 0 ↔ word.toNat < 128 := by
  rw [← UInt64.toNat_inj, toNat_shiftRight_seven]
  exact Nat.div_eq_zero_iff_lt (by decide)

/-- The mask of seven bits. -/
theorem toNat_lowBits (word : UInt64) : (word &&& 0x7F).toUInt8.toNat = word.toNat % 128 := by
  have mask : (word &&& 0x7F).toNat = word.toNat % 128 := by
    rw [UInt64.toNat_and]
    exact Nat.and_two_pow_sub_one_eq_mod word.toNat 7
  rw [UInt64.toNat_toUInt8, mask]
  omega

theorem toNat_lowBits_byte (b : UInt8) : (b &&& 0x7F).toUInt64.toNat = b.toNat % 128 := by
  rw [UInt8.toNat_toUInt64, UInt8.toNat_and]
  exact Nat.and_two_pow_sub_one_eq_mod b.toNat 7

/-- Setting the high bit of seven bits. -/
theorem toNat_or_highBit {b : UInt8} (low : b.toNat < 128) : (b ||| 0x80).toNat = b.toNat + 128 := by
  have whole := Nat.two_pow_add_eq_or_of_lt (i := 7) low 1
  rw [UInt8.toNat_or, Nat.or_comm, Nat.add_comm]
  exact whole.symm

theorem highBit_eq_zero {b : UInt8} : b &&& 0x80 = 0 ↔ b < 128 := by
  have bit : (b &&& 0x80).toNat = (b.toNat.testBit 7).toNat * 2 ^ 7 := by
    rw [UInt8.toNat_and]
    exact Nat.and_two_pow b.toNat 7
  rw [← UInt8.toNat_inj, bit, UInt8.lt_iff_toNat_lt]
  rcases Nat.lt_or_ge b.toNat 128 with low | high
  · rw [Nat.testBit_lt_two_pow low]
    exact iff_of_true rfl low
  · rw [Nat.testBit_of_two_pow_le_and_two_pow_add_one_gt high b.toNat_lt]
    exact iff_of_false (by decide) (Nat.not_lt.2 high)

/-- A group that is let in has room in a word. -/
theorem group_shiftLeft_lt {b : UInt8} {i : Nat} (few : i ≤ 9) (fits : ¬(9 ≤ i ∧ 1 < b)) :
    b.toNat % 128 * 2 ^ (7 * i) < 2 ^ 64 := by
  rcases Nat.lt_or_ge i 9 with before | tenth
  · have power : 2 ^ (7 * i) ≤ 2 ^ 56 := Nat.pow_le_pow_right (by decide) (by omega)
    have group : b.toNat % 128 ≤ 127 := Nat.le_of_lt_succ (Nat.mod_lt _ (by decide))
    exact Nat.lt_of_le_of_lt (Nat.mul_le_mul group power) (by decide)
  · obtain rfl : i = 9 := Nat.le_antisymm few tenth
    have bit : b ≤ 1 := UInt8.not_lt.1 fun above => fits ⟨tenth, above⟩
    have bit : b.toNat ≤ 1 := UInt8.le_iff_toNat_le.1 bit
    omega

/-- Putting a group above the bits of a word adds it to them. -/
theorem toNat_or_shiftLeft {word : UInt64} {b : UInt8} {i : Nat} (few : i ≤ 9)
    (low : word.toNat < 2 ^ (7 * i)) (fits : ¬(9 ≤ i ∧ 1 < b)) :
    (word ||| (b &&& 0x7F).toUInt64 <<< UInt64.ofNat (7 * i)).toNat
      = word.toNat + 2 ^ (7 * i) * (b.toNat % 128) := by
  have inside : 7 * i < 64 := by omega
  have place : (UInt64.ofNat (7 * i)).toNat = 7 * i :=
    UInt64.toNat_ofNat_of_lt' (Nat.lt_trans inside (by decide))
  rw [UInt64.toNat_or, UInt64.toNat_shiftLeft, toNat_lowBits_byte, place, Nat.mod_eq_of_lt inside,
    Nat.shiftLeft_eq, Nat.mod_eq_of_lt (group_shiftLeft_lt few fits), Nat.or_comm, Nat.mul_comm,
    ← Nat.two_pow_add_eq_or_of_lt low, Nat.add_comm]

/-! ### Writing -/

/-- Writes a word behind some bytes, its seven lowest bits first, for as long as bits are left. -/
def push (dest : Bytes) (word : UInt64) : Bytes :=
  let group := (word &&& 0x7F).toUInt8
  if word >>> 7 = 0 then dest ++ [group] else push (dest ++ [group ||| 0x80]) (word >>> 7)
termination_by word.toNat
decreasing_by
  rename_i more
  rw [shiftRight_seven_eq_zero] at more
  rw [toNat_shiftRight_seven]
  omega

theorem push_eq (dest : Bytes) (word : UInt64) : push dest word = dest ++ encode word := by
  fun_induction push dest word with
  | case1 dest word group last =>
    rw [shiftRight_seven_eq_zero] at last
    have same : group = UInt8.ofNat word.toNat := by
      rw [← UInt8.toNat_inj, toNat_lowBits, toNat_last last, Nat.mod_eq_of_lt last]
    rw [encode, groups, if_pos last, same]
  | case2 dest word group more ih =>
    rw [shiftRight_seven_eq_zero] at more
    have low : group.toNat = word.toNat % 128 := toNat_lowBits word
    have same : group ||| 0x80 = UInt8.ofNat (word.toNat % 128 + 128) := by
      rw [← UInt8.toNat_inj, toNat_group, toNat_or_highBit (by omega), low]
    rw [ih, encode, encode, groups.eq_def word.toNat, if_neg more, same, toNat_shiftRight_seven,
      List.append_assoc, List.singleton_append]

/-! ### Reading -/

/-- The places of the groups in a word. -/
def places : List Nat := List.range' 0 10 7

/-- Reads the groups at the given places of a word, from a position of some data on. There is no answer
    where no place is left for a byte that is due. -/
def gather (data : Bytes) : List Nat → UInt64 → Nat → Option (Except Error UInt64 × Nat)
  | [], _, _ => none
  | place :: places, word, position =>
    match data[position]? with
    | none => some (.error (.corrupt .recordTruncated), position)
    | some b =>
      if place = 63 ∧ 1 < b then some (.error (.corrupt .varintOverflow), position + 1)
      else
        let word := word ||| (b &&& 0x7F).toUInt64 <<< UInt64.ofNat place
        if b &&& 0x80 = 0 then some (.ok word, position + 1)
        else gather data places word (position + 1)

/-- Reads a number at a position of some data, and gives the position of the first byte that was not
    looked at. -/
def readAt (data : Bytes) (position : Nat) : Except Error UInt64 × Nat :=
  let (number, rest) := read (data.drop position)
  (number, position + ((data.drop position).length - rest.length))

theorem range'_places {i : Nat} (few : i ≤ 9) :
    List.range' (7 * i) (10 - i) 7 = 7 * i :: List.range' (7 * (i + 1)) (10 - (i + 1)) 7 := by
  rw [show 10 - i = 10 - (i + 1) + 1 by omega, List.range'_succ, Nat.mul_succ]

/-- A word with the groups below a place, and one group at it, has the groups below the next. -/
theorem add_group_lt {n g i : Nat} (low : n < 2 ^ (7 * i)) (group : g < 128) :
    n + 2 ^ (7 * i) * g < 2 ^ (7 * (i + 1)) := by
  calc n + 2 ^ (7 * i) * g
      < 2 ^ (7 * i) + 2 ^ (7 * i) * g := Nat.add_lt_add_right low _
    _ = 2 ^ (7 * i) * (g + 1) := by ring
    _ ≤ 2 ^ (7 * i) * 2 ^ 7 := Nat.mul_le_mul_left _ group
    _ = 2 ^ (7 * (i + 1)) := by rw [← Nat.pow_add, Nat.mul_succ]

/-- The invariant of the loop: before the group at place `7 * i` the word holds the groups below it. -/
theorem gather_eq {data bs : Bytes} {i position : Nat} {word : UInt64} (stand : data.drop position = bs)
    (few : i ≤ 9) (low : word.toNat < 2 ^ (7 * i)) :
    gather data (List.range' (7 * i) (10 - i) 7) word position
      = some ((readGroups i bs).1.map fun n => .ofNat (word.toNat + 2 ^ (7 * i) * n),
          position + (bs.length - (readGroups i bs).2.length)) := by
  have here : data[position]? = bs[0]? := by
    rw [← stand, List.getElem?_drop, Nat.add_zero]
  induction bs generalizing i position word with
  | nil =>
    rw [range'_places few, gather, here, readGroups]
    rfl
  | cons b bs ih =>
    have here : data[position]? = some b := here
    have behind : data.drop (position + 1) = bs := by
      rw [← List.drop_drop, stand]
      rfl
    have tenth : 7 * i = 63 ↔ 9 ≤ i := by omega
    simp only [range'_places few, gather, here, readGroups, tenth, highBit_eq_zero]
    split_ifs with large last
    · rw [List.length_cons, Nat.add_sub_cancel_left]
      rfl
    · have sum := toNat_or_shiftLeft few low large
      rw [Nat.mod_eq_of_lt (show b.toNat < 128 from UInt8.lt_iff_toNat_lt.1 last)] at sum
      rw [← UInt64.ofNat_toNat (x := word ||| _), sum, List.length_cons, Nat.add_sub_cancel_left]
      rfl
    · have before : i + 1 ≤ 9 := by
        by_contra ninth
        exact last (UInt8.lt_of_le_of_lt (UInt8.not_lt.1 fun above => large ⟨by omega, above⟩) (by decide))
      have sum := toNat_or_shiftLeft few low large
      have raised := sum ▸ add_group_lt low (Nat.mod_lt b.toNat (by decide))
      have next : data[position + 1]? = bs[0]? := by
        rw [← behind, List.getElem?_drop, Nat.add_zero]
      have shorter := (readGroups_suffix (i + 1) bs).length_le
      rw [ih behind before raised next, sum]
      generalize readGroups (i + 1) bs = result at shorter ⊢
      obtain ⟨number, rest⟩ := result
      have shorter : rest.length ≤ bs.length := shorter
      have looked : position + 1 + (bs.length - rest.length)
          = position + ((b :: bs).length - rest.length) := by
        rw [List.length_cons]
        omega
      cases number with
      | error => simp only [Except.map, looked]
      | ok n =>
        have whole : word.toNat + 2 ^ (7 * i) * (b.toNat % 128) + 2 ^ (7 * (i + 1)) * n
            = word.toNat + 2 ^ (7 * i) * (b.toNat % 128 + 128 * n) := by
          rw [Nat.mul_succ, Nat.pow_add]
          ring
        simp only [Except.map, looked, whole]

/-- The places never run out, and the word comes to the number that is read. -/
theorem gather_places (data : Bytes) (position : Nat) :
    gather data places 0 position = some (readAt data position) := by
  have low : (0 : UInt64).toNat < 2 ^ (7 * 0) := by decide
  have loop := gather_eq (rfl : data.drop position = data.drop position) (by decide) low
  rw [places, loop, readAt, read]
  rcases readGroups 0 (data.drop position) with ⟨e | n, rest⟩
  · rfl
  · simp only [Except.map, UInt64.toNat_zero, Nat.mul_zero, Nat.pow_zero, Nat.one_mul, Nat.zero_add]

theorem readAt_of_drop {data used rest : Bytes} {position : Nat} {number : Except Error UInt64}
    (stand : data.drop position = used ++ rest) (h : read (used ++ rest) = (number, rest)) :
    readAt data position = (number, position + used.length) := by
  simp only [readAt, stand, h, List.length_append, Nat.add_sub_cancel]

/-- A numeral begins at a position of some data. -/
structure NumeralAt (data : Bytes) (position : Nat) (more : Bytes) (last : UInt8) : Prop
    extends IsNumeral more last where
  stands : more ++ [last] <+: data.drop position

variable {data : Bytes} {position : Nat}

theorem readAt_numeral {more : Bytes} {last : UInt8} (h : NumeralAt data position more last) :
    readAt data position = (.ok (.ofNat (value (more ++ [last]))), position + (more.length + 1)) := by
  obtain ⟨numeral, rest, stand⟩ := h
  have taken := read_numeral numeral rest
  rw [← List.singleton_append, ← List.append_assoc] at taken
  rw [readAt_of_drop stand.symm taken, List.length_append, List.length_singleton]

/-- Without a numeral ten bytes are looked at, or all that there are. -/
theorem readAt_of_not_numeral (none : ¬∃ more last, NumeralAt data position more last) :
    readAt data position
      = if position + maxLength ≤ data.length
        then (.error (.corrupt .varintOverflow), position + maxLength)
        else (.error (.corrupt .recordTruncated), max position data.length) := by
  have available := List.length_drop (i := position) (l := data)
  generalize stand : data.drop position = bs at available
  cases front bs with
  | numeral h rest =>
    refine absurd ⟨_, _, h, rest, ?_⟩ none
    rw [stand, List.append_assoc, List.singleton_append]
  | cut goesOn short =>
    have few : ¬position + maxLength ≤ data.length := by omega
    have taken := read_cut goesOn short
    rw [← List.append_nil bs] at taken stand
    rw [if_neg few, readAt_of_drop stand taken]
    congr 1
    omega
  | @overlong more last goesOn tenth large rest =>
    rw [List.length_append, List.length_cons] at available
    have enough : position + maxLength ≤ data.length := by omega
    have taken := read_overlong goesOn tenth large rest
    rw [← List.singleton_append, ← List.append_assoc] at taken stand
    rw [if_pos enough, readAt_of_drop stand taken, List.length_append, List.length_singleton, tenth]

/-- A number is read where it was written, whatever stands before and behind it, and it takes up ten
    bytes at most. Of any data, what is read at a position is the numeral that begins there, with all of
    its value; the numeral that would have been written for it is no longer. Where there is none, ten
    bytes are looked at before there are too many bits, or all bytes if they are fewer. All this is done
    in one word by masks and shifts, and the places for groups never run out. -/
theorem readAt_exact (before rest : Bytes) (v : UInt64) (data : Bytes) (position : Nat) :
    (push before v = before ++ encode v ∧ (encode v).length ≤ maxLength
      ∧ readAt (push before v ++ rest) before.length = (.ok v, (push before v).length))
    ∧ ((readAt data position).1.isOk ↔ ∃ more last, NumeralAt data position more last)
    ∧ (∀ more last, NumeralAt data position more last →
      value (more ++ [last]) < 2 ^ 64
      ∧ readAt data position = (.ok (.ofNat (value (more ++ [last]))), position + (more.length + 1))
      ∧ (encode (.ofNat (value (more ++ [last])))).length ≤ more.length + 1)
    ∧ ((¬∃ more last, NumeralAt data position more last) →
      readAt data position
        = if position + maxLength ≤ data.length
          then (.error (.corrupt .varintOverflow), position + maxLength)
          else (.error (.corrupt .recordTruncated), max position data.length))
    ∧ gather data places 0 position = some (readAt data position) := by
  refine ⟨⟨push_eq before v, encode_length_le v, ?_⟩, ⟨?_, ?_⟩, ?_, readAt_of_not_numeral,
    gather_places data position⟩
  · have stand : (before ++ encode v ++ rest).drop before.length = encode v ++ rest := by
      rw [List.append_assoc, List.drop_left]
    rw [push_eq, readAt_of_drop stand (read_encode v rest), List.length_append]
  · intro ok
    by_contra none
    rw [readAt_of_not_numeral none] at ok
    split at ok
    all_goals cases ok
  · rintro ⟨more, last, h⟩
    rw [readAt_numeral h]
    rfl
  · intro more last h
    exact ⟨h.value_lt, readAt_numeral h, encode_value_length_le h.toIsNumeral⟩

/-- A byte, and then a numeral of the number whose only bit is the highest. -/
def topBit : Bytes := 7 :: (List.replicate 9 0x80 ++ [1])

theorem readAt_exact_topBit :
    (NumeralAt topBit 1 (List.replicate 9 0x80) 1 ∧ readAt topBit 1 = (.ok 0x8000000000000000, 11))
    ∧ (¬∃ more last, NumeralAt topBit 11 more last)
    ∧ readAt topBit 11 = (.error (.corrupt .recordTruncated), 11) := by
  have goesOn : ∀ b ∈ List.replicate 9 (0x80 : UInt8), 128 ≤ b := by
    intro b hb
    rw [List.eq_of_mem_replicate hb]
    exact UInt8.le_refl _
  have numeral : NumeralAt topBit 1 (List.replicate 9 0x80) 1 :=
    ⟨⟨goesOn, by decide, by decide, by decide⟩, by decide⟩
  have high : value (List.replicate 9 0x80 ++ [1]) = 0x8000000000000000 := by decide
  obtain ⟨-, -, inside, -, -⟩ := readAt_exact [] [] 0 topBit 1
  obtain ⟨-, found, -, behind, -⟩ := readAt_exact [] [] 0 topBit 11
  have refused : (readAt topBit 11).1.isOk = false := rfl
  have none : ¬∃ more last, NumeralAt topBit 11 more last := by
    rw [← found, refused]
    exact Bool.false_ne_true
  have read := (inside _ _ numeral).2.1
  rw [high] at read
  exact ⟨⟨numeral, read⟩, none, behind none⟩

end ResourceArchive.Varint
