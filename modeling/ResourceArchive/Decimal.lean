import ResourceArchive.Binary64

/-! Decimal notation of binary numbers: an optional sign, then digits with at most one point and at
    least one digit, then optionally `e` and a decimal exponent; or a name for infinity or for no
    number, in any case. Nothing may stand before or after. -/

namespace ResourceArchive.Decimal

/-- Why a text is no decimal number. -/
inductive Fault where
  | empty
  | invalid
  deriving DecidableEq, Repr

def Fault.message : Fault → String
  | .empty => "cannot parse float from empty string"
  | .invalid => "invalid float literal"

/-- The number that decimal digits spell. -/
def ofDigits (cs : List Char) : Nat := cs.foldl (fun n c => 10 * n + (c.toNat - '0'.toNat)) 0

/-- Size at which an exponent takes no more digits; it is far outside the format by then. -/
def exponentLimit : Nat := 0x10000

/-- The exponent that decimal digits spell. -/
def exponentOfDigits (cs : List Char) : Nat :=
  cs.foldl (fun n c => if n < exponentLimit then 10 * n + (c.toNat - '0'.toNat) else n) 0

/-- A sign, if there is one: whether it is a minus, and what follows. -/
def sign : List Char → Bool × List Char
  | '-' :: cs => (true, cs)
  | '+' :: cs => (false, cs)
  | cs => (false, cs)

/-- The exponent that ends a number; none at all is zero. -/
def exponent? : List Char → Option Int
  | [] => some 0
  | c :: cs =>
    if c = 'e' ∨ c = 'E' then
      let (minus, cs) := sign cs
      if cs ≠ [] ∧ cs.all Char.isDigit then
        some (if minus then -(exponentOfDigits cs : Int) else exponentOfDigits cs)
      else none
    else none

/-- The binary number nearest to the number of these digits times `10 ^ e`. Exponents that put the
    number far outside the format are settled without the power. -/
def scaled (digits : List Char) (e : Int) : Binary64 :=
  let digits := digits.dropWhile (· == '0')
  let magnitude := e + digits.length
  if digits.isEmpty ∨ magnitude < -400 then .zero
  else if 400 < magnitude then .infinity
  else
    let m := ofDigits digits
    .ofQuotient (m * Nat.pow 10 e.toNat) (Nat.pow 10 (-e).toNat)

/-- Digits, point, digits and exponent. -/
def magnitude? (cs : List Char) : Option Binary64 :=
  let whole := cs.takeWhile Char.isDigit
  let (part, rest) := match cs.dropWhile Char.isDigit with
    | '.' :: cs => (cs.takeWhile Char.isDigit, cs.dropWhile Char.isDigit)
    | cs => ([], cs)
  if whole.isEmpty ∧ part.isEmpty then none
  else (exponent? rest).map fun e => scaled (whole ++ part) (e - part.length)

/-- The names of what is no finite number. -/
def named? (cs : List Char) : Option Binary64 :=
  let word := cs.map Char.toLower
  if word = "inf".toList ∨ word = "infinity".toList then some .infinity
  else if word = "nan".toList then some .notANumber
  else none

/-- Reads decimal notation. -/
def parse (text : String) : Except Fault Binary64 :=
  if text.isEmpty then .error .empty
  else
    let (minus, cs) := sign text.toList
    match (named? cs).or (magnitude? cs) with
    | some x => .ok (if minus then x.negate else x)
    | none => .error .invalid

end ResourceArchive.Decimal
