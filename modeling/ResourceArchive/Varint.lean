import ResourceArchive.Error

/-! Numbers of up to 64 bits as groups of seven bits, lowest group first. Every byte but the last
    has its high bit set. -/

namespace ResourceArchive.Varint

/-- The groups of a number. -/
def groups (n : Nat) : Bytes :=
  if n < 128 then [UInt8.ofNat n] else UInt8.ofNat (n % 128 + 128) :: groups (n / 128)
termination_by n

/-- The bytes of a 64-bit number, at most ten. -/
def encode (v : UInt64) : Bytes := groups v.toNat

/-- Reads groups after `i` of them: the value of the groups from here on, or why there is none, and
    the bytes left. The tenth byte holds the last bit of the 64, so it is 0 or 1. -/
def readGroups (i : Nat) : Bytes → Except Error Nat × Bytes
  | [] => (.error (.corrupt .recordTruncated), [])
  | b :: rest =>
    if 9 ≤ i ∧ 1 < b then (.error (.corrupt .varintOverflow), rest)
    else if b < 128 then (.ok b.toNat, rest)
    else match readGroups (i + 1) rest with
      | (.ok n, rest) => (.ok (b.toNat % 128 + 128 * n), rest)
      | (.error e, rest) => (.error e, rest)

/-- Reads a number from the front of `data`. The bytes left are those not looked at, also when the
    reading fails. -/
def read (data : Bytes) : Except Error UInt64 × Bytes :=
  match readGroups 0 data with
  | (.ok n, rest) => (.ok (UInt64.ofNat n), rest)
  | (.error e, rest) => (.error e, rest)

theorem readGroups_suffix (i : Nat) (data : Bytes) : (readGroups i data).2 <:+ data := by
  fun_induction readGroups i data with
  | case1 => exact List.suffix_refl _
  | case2 => exact List.suffix_cons ..
  | case3 => exact List.suffix_cons ..
  | case4 i b rest _ _ n r h ih => rw [h] at ih; exact ih.trans (List.suffix_cons ..)
  | case5 i b rest _ _ e r h ih => rw [h] at ih; exact ih.trans (List.suffix_cons ..)

theorem read_suffix (data : Bytes) : (read data).2 <:+ data := by
  have h := readGroups_suffix 0 data
  rw [read]
  split <;> next heq => rw [heq] at h; exact h

/-- Number of bytes that a number can take. -/
def maxLength : Nat := 10

/-- Bytes behind the longest number change nothing. -/
theorem readGroups_append {i : Nat} (hi : i ≤ 9) (a b : Bytes) (h : 10 ≤ i + a.length) :
    readGroups i (a ++ b) = ((readGroups i a).1, (readGroups i a).2 ++ b) := by
  induction a generalizing i with
  | nil => simp at h; omega
  | cons x a ih =>
    rw [List.cons_append, readGroups, readGroups]
    split
    · rfl
    · split
      · rfl
      · next h9 h128 =>
        have hi9 : i ≠ 9 := by
          rintro rfl
          simp only [Nat.le_refl, true_and, UInt8.not_lt] at h9
          exact h128 (Nat.lt_of_le_of_lt (UInt8.le_iff_toNat_le.1 h9) (by decide))
        rw [ih (by omega) (by simp at h; omega)]
        rcases readGroups (i + 1) a with ⟨_ | _, _⟩ <;> rfl

theorem read_append (a b : Bytes) (h : maxLength ≤ a.length) :
    read (a ++ b) = ((read a).1, (read a).2 ++ b) := by
  rw [read, read, readGroups_append (by decide) a b (by simpa [maxLength] using h)]
  rcases readGroups 0 a with ⟨_ | _, _⟩ <;> rfl

end ResourceArchive.Varint
