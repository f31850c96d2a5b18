import Mathlib.Tactic.SplitIfs
import ResourceArchive.Text

/-! Texts and their bytes. A text is determined by its bytes, the bytes of texts are ordered as the texts
    are, and the byte of an ASCII character stands for it and for nothing else. -/

namespace ResourceArchive

theorem utf8_inj {s t : String} : utf8 s = utf8 t ↔ s = t := by
  constructor
  · intro h
    have h := congrArg text? h
    rwa [text?_utf8, text?_utf8, Option.some.injEq] at h
  · rintro rfl
    rfl

theorem utf8_empty : utf8 "" = [] := rfl

theorem utf8_eq_flatMap (s : String) : utf8 s = s.toList.flatMap String.utf8EncodeChar := by
  rw [utf8, ← String.utf8Encode_toList, List.utf8Encode]
  simp

/-! ### Order -/

/-- Of two characters the lesser has the lesser bytes, whatever follows them. -/
theorem utf8EncodeChar_lt {c d : Char} (h : c < d) (x y : Bytes) :
    String.utf8EncodeChar c ++ x < String.utf8EncodeChar d ++ y := by
  have low : c.val.toNat < d.val.toNat := h
  have high : d.val.toNat < 0x110000 := by
    have := d.valid
    rcases this with h | h <;> omega
  unfold String.utf8EncodeChar
  generalize c.val.toNat = v at low
  generalize d.val.toNat = w at low high
  simp only
  split_ifs
  all_goals
    simp (disch := omega) only [List.cons_append, List.nil_append, List.cons_lt_cons_iff,
      UInt8.lt_iff_toNat_lt, ← UInt8.toNat_inj, UInt8.toNat_ofNat', Nat.mod_eq_of_lt]
    omega

/-- Texts are ordered as their bytes are. -/
theorem utf8_lt {s t : String} (h : s < t) : utf8 s < utf8 t := by
  have h : List.Lex (· < ·) s.toList t.toList := h
  rw [utf8_eq_flatMap, utf8_eq_flatMap]
  generalize s.toList = cs at h
  generalize t.toList = ds at h
  induction h with
  | @nil d ds =>
    rw [List.flatMap_cons, List.flatMap_nil]
    rcases he : String.utf8EncodeChar d with _ | ⟨b, bs⟩
    · exact absurd he String.utf8EncodeChar_ne_nil
    · exact List.nil_lt_cons b _
  | rel h => exact utf8EncodeChar_lt h _ _
  | cons _ ih => exact List.append_left_lt ih

/-! ### Characters of one byte -/

theorem ascii_mem_utf8EncodeChar {a c : Char} (ascii : a.val.toNat < 0x80) :
    UInt8.ofNat a.val.toNat ∈ String.utf8EncodeChar c ↔ c = a := by
  have size : c.val.toNat < 0x110000 := by
    have := c.valid
    rcases this with h | h <;> omega
  have same : c = a ↔ c.val.toNat = a.val.toNat := by
    rw [← Char.val_inj, ← UInt32.toNat_inj]
  rw [same]
  unfold String.utf8EncodeChar
  generalize c.val.toNat = v at size
  generalize a.val.toNat = w at ascii
  simp only
  split_ifs
  all_goals
    simp only [List.mem_cons, List.not_mem_nil, ← UInt8.toNat_inj, UInt8.toNat_ofNat', or_false]
    omega

/-- The byte of such a character stands for it and for nothing else. -/
theorem ascii_mem_utf8 {s : String} {a : Char} (ascii : a.val.toNat < 0x80) :
    UInt8.ofNat a.val.toNat ∈ utf8 s ↔ a ∈ s.toList := by
  rw [utf8_eq_flatMap, List.mem_flatMap]
  constructor
  · rintro ⟨c, hc, h⟩
    exact (ascii_mem_utf8EncodeChar ascii).1 h ▸ hc
  · intro h
    exact ⟨_, h, (ascii_mem_utf8EncodeChar ascii).2 rfl⟩

/-- The texts that a pool refuses are those with a NUL. -/
theorem zero_mem_utf8 {s : String} : 0 ∈ utf8 s ↔ '\x00' ∈ s.toList :=
  ascii_mem_utf8 (a := '\x00') (by decide)

theorem slash_mem_utf8 {s : String} : 0x2F ∈ utf8 s ↔ '/' ∈ s.toList :=
  ascii_mem_utf8 (a := '/') (by decide)

end ResourceArchive
