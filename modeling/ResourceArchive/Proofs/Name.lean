import ResourceArchive.Name
import ResourceArchive.Proofs.Text

/-! Names and their parts. Comparing a name with parts piece by piece, from the left, comes to the same
    as comparing it with the full name that the parts make up, whatever the parts hold: a part may have
    slashes or dots of its own, or be empty. -/

namespace ResourceArchive

theorem isPrefixOf?_eq_some {front bs rest : Bytes} :
    front.isPrefixOf? bs = some rest ↔ front ++ rest = bs := by
  induction front generalizing bs with
  | nil =>
    show some bs = some rest ↔ rest = bs
    rw [Option.some.injEq, eq_comm]
  | cons a front ih =>
    cases bs with
    | nil => constructor <;> intro h <;> cases h
    | cons b bs =>
      show (if a == b then front.isPrefixOf? bs else none) = some rest ↔ a :: (front ++ rest) = b :: bs
      rw [List.cons.injEq]
      by_cases same : a = b
      · rw [if_pos (beq_iff_eq.2 same), ih]
        exact ⟨fun h => ⟨same, h⟩, And.right⟩
      · rw [if_neg (mt beq_iff_eq.1 same)]
        constructor
        · intro h
          cases h
        · intro h
          exact absurd h.1 same

namespace NameParts

theorem strip_eq_some {before part after : String} {name rest : Bytes} :
    strip before part after name = some rest ↔ utf8 (framed before part after) ++ rest = name := by
  unfold strip framed
  split
  · rw [utf8_empty, List.nil_append, Option.some.injEq, eq_comm]
  · simp only [Option.bind_eq_bind, Option.bind_eq_some_iff, isPrefixOf?_eq_some, utf8_append,
      List.append_assoc]
    constructor
    · rintro ⟨_, rfl, _, rfl, rfl⟩
      rfl
    · rintro rfl
      exact ⟨_, rfl, _, rfl, rfl⟩

/-- Parts accept the full name that they make up, and no other. -/
theorem accepts_iff {p : NameParts} {name : Bytes} : p.accepts name ↔ utf8 p.fullName = name := by
  simp only [accepts, beq_iff_eq, Option.bind_eq_bind, Option.bind_eq_some_iff, strip_eq_some,
    isPrefixOf?_eq_some, fullName, utf8_append, List.append_assoc]
  constructor
  · rintro ⟨_, rfl, _, rfl, _, rfl, rfl⟩
    rw [List.append_nil]
  · rintro rfl
    exact ⟨_, rfl, _, rfl, _, rfl, List.append_nil _⟩

theorem eq_ofChars_of_split {name : String} {p : NameParts} (h : split name = .ok p) :
    p = ofChars name.toList := by
  rw [split] at h
  split at h
  · cases h
  · cases h
    rfl

theorem split_error {name : String} {e : Error} (h : split name = .error e) : e = .invalidName name := by
  rw [split] at h
  split at h
  · cases h
    rfl
  · cases h

/-- The parts of a name that can be stored make it up again. -/
theorem fullName_of_split {name : String} {p : NameParts} (h : split name = .ok p) :
    p.fullName = name := by
  obtain rfl := eq_ofChars_of_split h
  rw [split] at h
  split at h
  · cases h
  · next storable => exact Decidable.not_not.1 fun other => storable (.inr (.inr other))

/-- What the pieces tell is what the full name tells, of bytes and of texts, and whatever the pieces hold.
    So the names that can be stored are those that their pieces make up. -/
theorem accepts_decides (p : NameParts) (name : Bytes) (s : String) :
    (p.accepts name = true ↔ name = utf8 p.fullName)
    ∧ (p.accepts (utf8 s) = true ↔ s = p.fullName)
    ∧ split s
      = if s = "" ∨ '\x00' ∈ s.toList then .error (.invalidName s)
        else if (ofChars s.toList).accepts (utf8 s) then .ok (ofChars s.toList)
        else .error (.invalidName s) := by
  refine ⟨?_, ?_, ?_⟩
  · rw [accepts_iff, eq_comm]
  · rw [accepts_iff, utf8_inj, eq_comm]
  · have told : (ofChars s.toList).accepts (utf8 s) ↔ (ofChars s.toList).fullName = s := by
      rw [accepts_iff, utf8_inj]
    rw [split]
    by_cases unfit : s = "" ∨ '\x00' ∈ s.toList
    · rw [if_pos unfit, if_pos (unfit.imp_right .inl)]
    rw [if_neg unfit]
    by_cases whole : (ofChars s.toList).fullName = s
    · have fit : ¬(s = "" ∨ '\x00' ∈ s.toList ∨ (ofChars s.toList).fullName ≠ s) := by
        rw [← or_assoc]
        exact not_or.2 ⟨unfit, not_not_intro whole⟩
      rw [if_neg fit, if_pos (told.2 whole)]
    · rw [if_pos (.inr (.inr whole)), if_neg (mt told.1 whole)]

end NameParts

end ResourceArchive
