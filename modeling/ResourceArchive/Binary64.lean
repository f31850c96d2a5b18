/-! Numbers of the 64-bit binary floating-point format, as their bits. Arithmetic is exact on natural
    numbers and rounded once, to the nearest representable number; of two equally near the one with
    an even significand is taken. Only what sizes need is here: numbers that are not negative. -/

namespace ResourceArchive

/-- A number of the 64-bit binary format: sign, eleven bits of exponent, 52 bits of fraction. -/
structure Binary64 where
  bits : UInt64
  deriving DecidableEq, Repr, Inhabited

/-- The quotient rounded to the nearest integer, a tie going to the even one. -/
def roundedQuotient (num den : Nat) : Nat :=
  let q := num / den
  let twice := 2 * (num % den)
  if den < twice ∨ (twice = den ∧ q % 2 = 1) then q + 1 else q

/-- The greatest `k` with `2 ^ k * den ≤ num`, for positive numbers. -/
def binaryExponent (num den : Nat) : Int :=
  let k : Int := Nat.log2 num - Nat.log2 den
  if num <<< (-k).toNat < den <<< k.toNat then k - 1 else k

namespace Binary64

def zero : Binary64 := ⟨0⟩
def one : Binary64 := ⟨0x3FF0000000000000⟩
def infinity : Binary64 := ⟨0x7FF0000000000000⟩
def notANumber : Binary64 := ⟨0x7FF8000000000000⟩

/-- The bit before the point of a significand, `2 ^ 52`. -/
def leadingBit : Nat := 0x10000000000000

/-- The number with the other sign. -/
def negate (x : Binary64) : Binary64 := ⟨x.bits ^^^ 0x8000000000000000⟩

/-- The number nearest to a quotient. Quotients too great for the format become infinite. The bits of
    a number that is not negative are its significand plus its exponent times the leading bit, also
    when rounding carried into the exponent. -/
def ofQuotient (num den : Nat) : Binary64 :=
  if num = 0 then zero
  else
    let unit := max (binaryExponent num den - 52) (-1074)
    let m := roundedQuotient (num <<< (-unit).toNat) (den <<< unit.toNat)
    let bits := (unit + 1074).toNat * leadingBit + m
    if infinity.bits.toNat ≤ bits then infinity else ⟨UInt64.ofNat bits⟩

/-- The biased exponent. -/
def exponentField (x : Binary64) : Nat := x.bits.toNat / leadingBit % 2048

/-- The bits after the point. -/
def fraction (x : Binary64) : Nat := x.bits.toNat % leadingBit

/-- The significand as an integer; a finite number is `significand * 2 ^ unit` up to its sign. -/
def significand (x : Binary64) : Nat :=
  if x.exponentField = 0 then x.fraction else leadingBit + x.fraction

/-- The exponent of a finite number's last bit. -/
def unit (x : Binary64) : Int := max x.exponentField 1 - 1075

/-- The number itself if it is at least one, else one; also where there is no number. Bits of numbers
    with a positive sign are ordered as the numbers are. -/
def atLeastOne (x : Binary64) : Binary64 :=
  if one.bits ≤ x.bits ∧ x.bits ≤ infinity.bits then x else one

/-- The product of a count and a number that is not negative, both rounded. -/
def scale (n : Nat) (x : Binary64) : Binary64 :=
  if infinity.bits ≤ x.bits then infinity
  else
    let count := ofQuotient n 1
    let e := count.unit + x.unit
    ofQuotient ((count.significand * x.significand) <<< e.toNat) (1 <<< (-e).toNat)

/-- The least integer that is not below a number with a positive sign, if the number is finite. -/
def ceil? (x : Binary64) : Option Nat :=
  if infinity.bits ≤ x.bits then none
  else
    let whole := 1 <<< (-x.unit).toNat
    some ((x.significand <<< x.unit.toNat + (whole - 1)) / whole)

end Binary64

end ResourceArchive
