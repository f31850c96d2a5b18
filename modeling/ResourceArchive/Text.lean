import ResourceArchive.Bytes

/-! Text as bytes. Names are stored as UTF-8; a byte string is read back either strictly, when it
    has to be text, or leniently, when it is only shown to a person. -/

namespace ResourceArchive

/-- The UTF-8 bytes of a text. -/
def utf8 (s : String) : Bytes := s.toByteArray.data.toList

/-- The text that UTF-8 bytes spell, if they are well formed. -/
def text? (bs : Bytes) : Option String := String.fromUTF8? ⟨bs.toArray⟩

namespace Lenient

/-- A character begun but not complete: the bits read so far, and for each byte still to come the
    range it has to lie in. -/
structure Partial where
  code : Nat
  expected : List (UInt8 × UInt8)

/-- What stands for a run of bytes that is no character. -/
def replacement : Char := '\uFFFD'

/-- Any continuation byte. -/
def tail : UInt8 × UInt8 := (0x80, 0xBF)

/-- The first byte of a character of two bytes or more. The range of the second byte keeps out
    overlong forms, surrogates and values past the last code point. -/
def lead? (b : UInt8) : Option Partial :=
  let code (bits : UInt8) := (b &&& bits).toNat
  if 0xC2 ≤ b ∧ b ≤ 0xDF then some ⟨code 0x1F, [tail]⟩
  else if b = 0xE0 then some ⟨code 0x0F, [(0xA0, 0xBF), tail]⟩
  else if b = 0xED then some ⟨code 0x0F, [(0x80, 0x9F), tail]⟩
  else if 0xE1 ≤ b ∧ b ≤ 0xEF then some ⟨code 0x0F, [tail, tail]⟩
  else if b = 0xF0 then some ⟨code 0x07, [(0x90, 0xBF), tail, tail]⟩
  else if 0xF1 ≤ b ∧ b ≤ 0xF3 then some ⟨code 0x07, [tail, tail, tail]⟩
  else if b = 0xF4 then some ⟨code 0x07, [(0x80, 0x8F), tail, tail]⟩
  else none

/-- A byte where a character may begin. -/
def start (b : UInt8) : List Char × Option Partial :=
  if b < 0x80 then ([Char.ofNat b.toNat], none)
  else match lead? b with
    | some p => ([], some p)
    | none => ([replacement], none)

/-- One byte: the characters it completes, and what is left open. A byte that does not fit the open
    character closes it with one replacement and begins anew. -/
def step : Option Partial → UInt8 → List Char × Option Partial
  | none, b => start b
  | some ⟨_, []⟩, b => start b
  | some ⟨code, (lo, hi) :: more⟩, b =>
    if lo ≤ b ∧ b ≤ hi then
      let code := code * 64 + (b &&& 0x3F).toNat
      if more.isEmpty then ([Char.ofNat code], none) else ([], some ⟨code, more⟩)
    else
      let (cs, next) := start b
      (replacement :: cs, next)

/-- Reads on from an open character; one left open at the end is replaced. -/
def chars : Option Partial → Bytes → List Char
  | none, [] => []
  | some _, [] => [replacement]
  | state, b :: bs =>
    let (cs, next) := step state b
    cs ++ chars next bs

end Lenient

/-- Shows bytes as text, with one replacement character for every longest beginning of a character
    that is not completed and for every byte that begins none. -/
def lenientText (bs : Bytes) : String := String.ofList (Lenient.chars none bs)

theorem utf8_append (s t : String) : utf8 (s ++ t) = utf8 s ++ utf8 t := by
  simp [utf8, ByteArray.data_append]

theorem text?_utf8 (s : String) : text? (utf8 s) = some s := by
  have h : (⟨(utf8 s).toArray⟩ : ByteArray) = s.toByteArray := by simp [utf8]
  rw [text?, h, String.fromUTF8?, dif_pos s.isValidUTF8]
  rfl

theorem utf8_of_text? {bs : Bytes} {s : String} (h : text? bs = some s) : utf8 s = bs := by
  rw [text?, String.fromUTF8?] at h
  split at h
  · cases h; simp [utf8, String.fromUTF8]
  · cases h

end ResourceArchive
