import Mathlib.Data.FinEnum
import Mathlib.Data.Nat.ModEq
import Mathlib.Data.Nat.Prime.Basic
import Mathlib.Data.Set.Card
import ResourceArchive.Hash

/-! What a seed can do to the hash of a name. Every step of the fold can be undone, and so can every step of
    the finalizer: with a name given, of any length, the states are the seeds in another order. Just the
    mask forgets a bit, and joins the states two by two. So each value is the hash for two seeds, and no
    slot of a table is closed to a name. -/

namespace ResourceArchive.Hash

open Function

/-! ### Steps -/

/-- Multiplying by an odd number can be undone among the words. -/
theorem mul_bijective {m : UInt32} (odd : Odd m.toNat) :
    Bijective fun state : UInt32 => state * m := by
  refine Injective.bijective_of_finite ?_
  intro a b same
  have products : a.toNat * m.toNat ≡ b.toNat * m.toNat [MOD 2 ^ 32] := by
    have same := congrArg UInt32.toNat same
    rwa [UInt32.toNat_mul, UInt32.toNat_mul] at same
  have coprime : Nat.gcd (2 ^ 32) m.toNat = 1 := Nat.Coprime.pow_left 32 odd.coprime_two_left
  have residues : a.toNat ≡ b.toNat [MOD 2 ^ 32] := products.cancel_right_of_coprime coprime
  exact UInt32.toNat_inj.1 (residues.eq_of_lt_of_lt a.toNat_lt b.toNat_lt)

theorem xor_bijective (word : UInt32) : Bijective fun state : UInt32 => state ^^^ word := by
  refine Involutive.bijective ?_
  intro state
  show state ^^^ word ^^^ word = state
  rw [UInt32.xor_assoc, UInt32.xor_self, UInt32.xor_zero]

/-- No word but zero stays where it is when its bits move down. -/
theorem eq_zero_of_shiftRight_eq {word k : UInt32} (moves : k.toNat % 32 ≠ 0) (h : word >>> k = word) :
    word = 0 := by
  have divided : word.toNat / 2 ^ (k.toNat % 32) = word.toNat := by
    have h := congrArg UInt32.toNat h
    rwa [UInt32.toNat_shiftRight, Nat.shiftRight_eq_div_pow] at h
  by_contra nonzero
  have positive : 0 < word.toNat := Nat.pos_of_ne_zero fun zero => nonzero (UInt32.toNat_inj.1 zero)
  have less := Nat.div_lt_self positive (Nat.one_lt_two_pow moves)
  omega

/-- An exclusive or with the bits above can be undone: the difference of two states that become the same
    does not change when it is shifted. -/
theorem xorShift_bijective {k : UInt32} (moves : k.toNat % 32 ≠ 0) :
    Bijective fun state : UInt32 => state ^^^ (state >>> k) := by
  refine Injective.bijective_of_finite ?_
  intro a b same
  have difference : (a ^^^ b) >>> k = a ^^^ b := by
    rw [UInt32.shiftRight_xor, ← UInt32.xor_eq_zero_iff]
    calc a >>> k ^^^ b >>> k ^^^ (a ^^^ b) = (a ^^^ a >>> k) ^^^ (b ^^^ b >>> k) := by ac_rfl
      _ = 0 := UInt32.xor_eq_zero_iff.2 same
  exact UInt32.xor_eq_zero_iff.1 (eq_zero_of_shiftRight_eq moves difference)

/-! ### States -/

/-- One byte permutes the states. -/
theorem absorb_byte_bijective (b : UInt8) :
    Bijective fun state : UInt32 => state * multiplier ^^^ b.toUInt32 :=
  (xor_bijective b.toUInt32).comp (mul_bijective (by decide))

theorem absorb_bijective (name : Bytes) : Bijective fun seed => absorb seed name := by
  induction name with
  | nil => exact bijective_id
  | cons b rest ih =>
    -- The state after the first byte is the seed of the rest.
    exact ih.comp (absorb_byte_bijective b)

theorem finalize_bijective : Bijective finalize :=
  -- From the last step back to the first.
  (xorShift_bijective (k := 16) (by decide)).comp <|
    (mul_bijective (m := 0xC2B2AE35) (by decide)).comp <|
    (xorShift_bijective (k := 13) (by decide)).comp <|
    (mul_bijective (m := 0x85EBCA6B) (by decide)).comp <|
    xorShift_bijective (k := 16) (by decide)

/-- A name of any length sends the seeds to the states one by one. -/
theorem state_bijective (name : Bytes) : Bijective fun seed => finalize (absorb seed name) :=
  finalize_bijective.comp (absorb_bijective name)

/-! ### Values -/

theorem toNat_code (name : Bytes) (seed : UInt32) :
    (code name seed).toNat = (finalize (absorb seed name)).toNat % 2 ^ 31 := by
  rw [code, UInt32.toNat_and]
  exact Nat.and_two_pow_sub_one_eq_mod _ 31

/-- Two states have given lower bits: one with the highest bit, and one without. -/
theorem encard_lowBits {value : Nat} (h : value < 2 ^ 31) :
    {state : UInt32 | state.toNat % 2 ^ 31 = value}.encard = 2 := by
  have low : (UInt32.ofNat value).toNat = value :=
    UInt32.toNat_ofNat_of_lt' (show value < 2 ^ 32 by omega)
  have high : (UInt32.ofNat (value + 2 ^ 31)).toNat = value + 2 ^ 31 :=
    UInt32.toNat_ofNat_of_lt' (show value + 2 ^ 31 < 2 ^ 32 by omega)
  have two : {state : UInt32 | state.toNat % 2 ^ 31 = value}
      = {UInt32.ofNat value, UInt32.ofNat (value + 2 ^ 31)} := by
    ext state
    have bound := state.toNat_lt
    rw [Set.mem_ofPred_eq, Set.mem_insert_iff, Set.mem_singleton_iff, ← UInt32.toNat_inj,
      ← UInt32.toNat_inj, low, high]
    omega
  rw [two, Set.encard_pair]
  rw [Ne, ← UInt32.toNat_inj, low, high]
  omega

theorem encard_seeds (name : Bytes) {value : Nat} (h : value < 2 ^ 31) :
    {seed | (code name seed).toNat = value}.encard = 2 := by
  have preimage : {seed | (code name seed).toNat = value}
      = Set.preimage (fun seed => finalize (absorb seed name))
        {state | state.toNat % 2 ^ 31 = value} := by
    ext seed
    rw [Set.mem_ofPred_eq, toNat_code]
    rfl
  rw [preimage, Set.encard_preimage_of_bijective (state_bijective name), encard_lowBits h]

theorem exists_seed (name : Bytes) {value : Nat} (h : value < 2 ^ 31) :
    ∃ seed, (code name seed).toNat = value := by
  have some : {seed | (code name seed).toNat = value}.encard ≠ 0 := by
    rw [encard_seeds name h]
    decide
  exact Set.encard_ne_zero.1 some

/-- Whatever the name, the seeds go to the values of 31 bits, two to each; and in a table of any size up to
    their number, every slot is where some seed sends the name. -/
theorem code_two_to_one (name : Bytes) :
    (∀ seed, (code name seed).toNat < 2 ^ 31)
    ∧ (∀ value < 2 ^ 31, {seed | (code name seed).toNat = value}.encard = 2)
    ∧ ∀ length ≤ 2 ^ 31, ∀ target < length, ∃ seed, slot name seed length = target := by
  refine ⟨fun seed => ?_, fun value h => encard_seeds name h, fun length most target inside => ?_⟩
  · rw [toNat_code]
    exact Nat.mod_lt _ (by decide)
  · -- A slot is itself a value, and the remainder leaves it as it is.
    obtain ⟨seed, h⟩ := exists_seed name (Nat.lt_of_lt_of_le inside most)
    exact ⟨seed, by rw [slot, h, Nat.mod_eq_of_lt inside]⟩

/-- The name `/m/foo.txt`. -/
def fooText : Bytes := [0x2F, 0x6D, 0x2F, 0x66, 0x6F, 0x6F, 0x2E, 0x74, 0x78, 0x74]

theorem code_two_to_one_fooText :
    (2147483647 < 2 ^ 31 ∧ {seed | (code fooText seed).toNat = 2147483647}.encard = 2)
    ∧ (64 ≤ 2 ^ 31 ∧ 63 < 64 ∧ ∃ seed, slot fooText seed 64 = 63)
    ∧ 2 ^ 31 ≤ 2 ^ 31 ∧ 2147483646 < 2 ^ 31 ∧ ∃ seed, slot fooText seed (2 ^ 31) = 2147483646 := by
  obtain ⟨-, two, reached⟩ := code_two_to_one fooText
  exact ⟨⟨by decide, two _ (by decide)⟩, ⟨by decide, by decide, reached _ (by decide) _ (by decide)⟩,
    Nat.le_refl _, by decide, reached _ (Nat.le_refl _) _ (by decide)⟩

end ResourceArchive.Hash
