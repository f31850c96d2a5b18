import Mathlib.Data.List.TakeDrop
import Mathlib.Data.List.TakeWhile
import Mathlib.Tactic.SplitIfs
import ResourceArchive.Proofs.Name

/-! The parts of names. `IsStorable` says which names can be split, and `IsCanonical` which parts they
    are split into. Splitting a name and making up the full name of parts are inverse to each other
    between the two. -/

namespace ResourceArchive

/-! ### Separators -/

section Breaks

variable {c : Char} {cs before after : List Char}

theorem breakFirst_of_not_mem (h : c ∉ cs) : breakFirst c cs = none := by
  have others : ∀ d ∈ cs, (d != c) = true := fun d hd => bne_iff_ne.2 fun same => h (same ▸ hd)
  rw [breakFirst, List.span_eq_takeWhile_dropWhile, List.dropWhile_eq_nil_iff.2 others]

theorem breakFirst_append (h : c ∉ before) :
    breakFirst c (before ++ c :: after) = some (before, after) := by
  have others : ∀ d ∈ before, (d != c) = true := fun d hd => bne_iff_ne.2 fun same => h (same ▸ hd)
  rw [breakFirst, List.span_eq_takeWhile_dropWhile, List.takeWhile_append_of_pos others,
    List.dropWhile_append_of_pos others]
  simp

/-- A list is broken at its first `c`, if it has one. -/
theorem breakFirst_cases (c : Char) (cs : List Char) :
    (c ∉ cs ∧ breakFirst c cs = none)
    ∨ ∃ before after, cs = before ++ c :: after ∧ c ∉ before
      ∧ breakFirst c cs = some (before, after) := by
  by_cases h : c ∈ cs
  · obtain ⟨before, after, rfl, first⟩ := List.eq_append_cons_of_mem h
    exact .inr ⟨before, after, rfl, first, breakFirst_append first⟩
  · exact .inl ⟨h, breakFirst_of_not_mem h⟩

theorem breakLast_of_not_mem (h : c ∉ cs) : breakLast c cs = none := by
  rw [breakLast, breakFirst_of_not_mem (by simpa using h)]
  rfl

theorem breakLast_append (h : c ∉ after) :
    breakLast c (before ++ c :: after) = some (before, after) := by
  have turned : (before ++ c :: after).reverse = after.reverse ++ c :: before.reverse := by simp
  rw [breakLast, turned, breakFirst_append (by simpa using h)]
  simp

/-- A list is broken at its last `c`, if it has one. -/
theorem breakLast_cases (c : Char) (cs : List Char) :
    (c ∉ cs ∧ breakLast c cs = none)
    ∨ ∃ before after, cs = before ++ c :: after ∧ c ∉ after
      ∧ breakLast c cs = some (before, after) := by
  by_cases h : c ∈ cs
  · obtain ⟨back, front, turned, last⟩ := List.eq_append_cons_of_mem (List.mem_reverse.2 h)
    have whole : cs = front.reverse ++ c :: back.reverse := by
      simpa using congrArg List.reverse turned
    have last : c ∉ back.reverse := by simpa using last
    exact .inr ⟨front.reverse, back.reverse, whole, last, whole ▸ breakLast_append last⟩
  · exact .inl ⟨h, breakLast_of_not_mem h⟩

end Breaks

namespace NameParts

variable {name : String} {p : NameParts} {cs file module parent base ext : List Char}

/-! ### One part after another -/

/-- A module is taken off if there is one, though it may be empty. -/
theorem takeModule_cases (cs : List Char) :
    (cs.head? ≠ some '/' ∧ takeModule cs = ([], cs))
    ∨ (∃ path, cs = '/' :: path ∧ '/' ∉ path ∧ takeModule cs = ([], cs))
    ∨ ∃ module path, cs = '/' :: (module ++ '/' :: path) ∧ '/' ∉ module
      ∧ takeModule cs = (module, path) := by
  rw [takeModule.eq_def]
  split
  · next rest =>
    obtain ⟨unslashed, none⟩ | ⟨module, path, rfl, first, broken⟩ := breakFirst_cases '/' rest
    · exact .inr (.inl ⟨rest, rfl, unslashed, by rw [none]; rfl⟩)
    · exact .inr (.inr ⟨module, path, rfl, first, by rw [broken]; rfl⟩)
  · next unrooted =>
    refine .inl ⟨fun rooted => ?_, rfl⟩
    obtain ⟨rest, same⟩ := List.head?_eq_some_iff.1 rooted
    exact unrooted rest same

theorem takeParent_cases (cs : List Char) :
    ('/' ∉ cs ∧ takeParent cs = ([], cs))
    ∨ ∃ parent file, cs = parent ++ '/' :: file ∧ '/' ∉ file ∧ takeParent cs = (parent, file) := by
  rw [takeParent]
  obtain ⟨unslashed, none⟩ | ⟨parent, file, same, last, broken⟩ := breakLast_cases '/' cs
  · exact .inl ⟨unslashed, by rw [none]; rfl⟩
  · exact .inr ⟨parent, file, same, last, by rw [broken]; rfl⟩

/-- A dot in a text with something before it and behind it, and no dot behind it. -/
def HasInnerDot (cs : List Char) : Prop :=
  ∃ front back, cs = front ++ '.' :: back ∧ front ≠ [] ∧ back ≠ [] ∧ '.' ∉ back

theorem takeExtension_append (filled : base ≠ []) (some : ext ≠ []) (undotted : '.' ∉ ext) :
    takeExtension (base ++ '.' :: ext) = (base, ext) := by
  rw [takeExtension, breakLast_append undotted]
  rcases base with _ | ⟨b, base⟩
  · exact absurd rfl filled
  rcases ext with _ | ⟨e, ext⟩
  · exact absurd rfl some
  rfl

theorem takeExtension_of_not_hasInnerDot (h : ¬HasInnerDot file) : takeExtension file = (file, []) := by
  rw [takeExtension]
  split
  · next b base e ext broken =>
    obtain ⟨-, none⟩ | ⟨front, back, whole, last, parted⟩ := breakLast_cases '.' file
    · rw [none] at broken
      cases broken
    · rw [parted] at broken
      cases broken
      exact absurd ⟨_, _, whole, List.cons_ne_nil _ _, List.cons_ne_nil _ _, last⟩ h
  · rfl

/-- An extension stands behind the last dot, if that is an inner one. -/
theorem takeExtension_cases (file : List Char) :
    (¬HasInnerDot file ∧ takeExtension file = (file, []))
    ∨ ∃ base ext, file = base ++ '.' :: ext ∧ base ≠ [] ∧ ext ≠ [] ∧ '.' ∉ ext
      ∧ takeExtension file = (base, ext) := by
  by_cases h : HasInnerDot file
  · obtain ⟨base, ext, rfl, filled, some, undotted⟩ := h
    exact .inr ⟨base, ext, rfl, filled, some, undotted, takeExtension_append filled some undotted⟩
  · exact .inl ⟨h, takeExtension_of_not_hasInnerDot h⟩

/-! ### What the parts make up -/

/-- What the base and the extension make up. -/
def fileChars (p : NameParts) : List Char := (p.base ++ framed "." p.extension "").toList

/-- What the parts behind the module make up. -/
def pathChars (p : NameParts) : List Char := (framed "" p.parent "/").toList ++ p.fileChars

theorem toList_fullName (p : NameParts) :
    p.fullName.toList = (framed "/" p.module "/").toList ++ p.pathChars := by
  simp [fullName, pathChars, fileChars]

theorem toList_framed (before part after : String) : (framed before part after).toList
    = if part = "" then [] else before.toList ++ part.toList ++ after.toList := by
  rw [framed]
  split_ifs <;> simp

section Fields

variable (cs : List Char)

theorem module_ofChars : (ofChars cs).module = String.ofList (takeModule cs).1 := rfl

theorem parent_ofChars :
    (ofChars cs).parent = String.ofList (takeParent (takeModule cs).2).1 := rfl

theorem base_ofChars : (ofChars cs).base
    = String.ofList (takeExtension (takeParent (takeModule cs).2).2).1 := rfl

theorem extension_ofChars : (ofChars cs).extension
    = String.ofList (takeExtension (takeParent (takeModule cs).2).2).2 := rfl

theorem fileChars_ofChars : (ofChars cs).fileChars = (takeParent (takeModule cs).2).2 := by
  rw [fileChars, base_ofChars, extension_ofChars, String.toList_append, toList_framed]
  generalize (takeParent (takeModule cs).2).2 = file
  obtain ⟨-, same⟩ | ⟨base, ext, rfl, -, some, -, same⟩ := takeExtension_cases file
  · simp [same]
  · simp [same, some]

/-- A slash in front, and no other. -/
def IsBare (cs : List Char) : Prop := ∃ file, cs = '/' :: file ∧ '/' ∉ file

/-- Nothing is lost behind the module but a slash that stands in front of the file alone. -/
theorem pathChars_ofChars :
    (¬IsBare (takeModule cs).2 ∧ (ofChars cs).pathChars = (takeModule cs).2)
    ∨ ∃ file, (takeModule cs).2 = '/' :: file ∧ '/' ∉ file ∧ (ofChars cs).pathChars = file := by
  rw [pathChars, fileChars_ofChars, parent_ofChars, toList_framed]
  generalize (takeModule cs).2 = path
  obtain ⟨unslashed, same⟩ | ⟨parent, file, rfl, last, same⟩ := takeParent_cases path
  · refine .inl ⟨?_, by simp [same]⟩
    rintro ⟨file, rfl, -⟩
    exact unslashed (.head _)
  · rw [same]
    rcases parent with _ | ⟨c, parent⟩
    · exact .inr ⟨file, rfl, last, rfl⟩
    · refine .inl ⟨?_, by simp⟩
      rintro ⟨rest, split, unslashed⟩
      cases split
      exact unslashed (by simp)

end Fields

theorem takeModule_append (unslashed : '/' ∉ module) (path : List Char) :
    takeModule ('/' :: (module ++ '/' :: path)) = (module, path) := by
  rw [takeModule, breakFirst_append unslashed]
  rfl

/-- The parts make up the name again if it has no slash in front, or a module behind it. -/
theorem fullName_ofChars_iff (cs : List Char) : (ofChars cs).fullName.toList = cs
    ↔ cs.head? ≠ some '/' ∨ (takeModule cs).1 ≠ [] ∧ ¬IsBare (takeModule cs).2 := by
  have path := pathChars_ofChars cs
  rw [toList_fullName, module_ofChars, toList_framed]
  generalize (ofChars cs).pathChars = made at path ⊢
  obtain ⟨isRelative, same⟩ | ⟨file, rfl, unslashed, same⟩ | ⟨module, rest, rfl, -, same⟩ :=
    takeModule_cases cs
  · rw [same] at path ⊢
    obtain ⟨-, rfl⟩ | ⟨file, rfl, -⟩ := path
    · simp [isRelative]
    · exact absurd rfl isRelative
  · rw [same] at path ⊢
    obtain ⟨filed, -⟩ | ⟨rest, rooted, -, rfl⟩ := path
    · exact absurd ⟨file, rfl, unslashed⟩ filed
    · simp [(List.cons.inj rooted).2]
  · rw [same] at path ⊢
    have shorter : made.length ≤ rest.length := by
      obtain ⟨-, rfl⟩ | ⟨file, rfl, -, rfl⟩ := path <;> simp
    -- An empty module is not written, so neither are the slashes around it.
    rcases module with _ | ⟨c, module⟩
    · have other : made ≠ '/' :: '/' :: rest := by
        rintro rfl
        simp only [List.length_cons] at shorter
        omega
      simpa using other
    · have whole : made = rest ↔ ¬IsBare rest := by
        obtain ⟨filed, rfl⟩ | ⟨file, rfl, unslashed, rfl⟩ := path
        · simp [filed]
        · have bare : IsBare ('/' :: made) := ⟨made, rfl, unslashed⟩
          simp [bare]
      simp [whole]

/-! ### Names that can be stored -/

/-- The names that can be stored: they are not empty, hold no NUL, and if one has a slash in front, then a
    module stands between it and the next, and what follows has no slash in front but with another one. -/
structure IsStorable (name : String) : Prop where
  filled : name ≠ ""
  clean : '\x00' ∉ name.toList
  shape : name.toList.head? ≠ some '/' ∨ ∃ module path : String,
    name = "/" ++ module ++ "/" ++ path ∧ module ≠ "" ∧ '/' ∉ module.toList
      ∧ ¬∃ file : String, path = "/" ++ file ∧ '/' ∉ file.toList

theorem isBare_iff {path : String} :
    IsBare path.toList ↔ ∃ file : String, path = "/" ++ file ∧ '/' ∉ file.toList := by
  constructor
  · rintro ⟨file, same, unslashed⟩
    exact ⟨String.ofList file, String.toList_inj.1 (by simpa using same), by simpa using unslashed⟩
  · rintro ⟨file, rfl, unslashed⟩
    exact ⟨file.toList, by simp, unslashed⟩

theorem toList_slashed (module path : String) :
    ("/" ++ module ++ "/" ++ path).toList = '/' :: (module.toList ++ '/' :: path.toList) := by
  simp

/-- A module is what stands between a slash in front and the next one. -/
theorem shape_iff : (∃ module path : String, name = "/" ++ module ++ "/" ++ path ∧ module ≠ ""
      ∧ '/' ∉ module.toList ∧ ¬∃ file : String, path = "/" ++ file ∧ '/' ∉ file.toList)
    ↔ (takeModule name.toList).1 ≠ [] ∧ ¬IsBare (takeModule name.toList).2 := by
  constructor
  · rintro ⟨module, path, rfl, some, unslashed, filed⟩
    rw [toList_slashed, takeModule_append unslashed, isBare_iff]
    exact ⟨by simpa using some, filed⟩
  · rintro ⟨some, filed⟩
    obtain ⟨-, same⟩ | ⟨-, -, -, same⟩ | ⟨module, path, chars, unslashed, same⟩ :=
      takeModule_cases name.toList
    · exact absurd (congrArg Prod.fst same) some
    · exact absurd (congrArg Prod.fst same) some
    · rw [same] at some filed
      refine ⟨String.ofList module, String.ofList path, ?_, by simpa using some,
        by simpa using unslashed, ?_⟩
      · exact String.toList_inj.1 (by rw [chars, toList_slashed]; simp)
      · rw [← isBare_iff]
        simpa using filed

theorem takeModule_of_isRelative (h : cs.head? ≠ some '/') : takeModule cs = ([], cs) := by
  obtain ⟨-, same⟩ | ⟨path, rfl, -⟩ | ⟨module, path, rfl, -⟩ := takeModule_cases cs
  · exact same
  · exact absurd rfl h
  · exact absurd rfl h

theorem split_eq_ok_ofChars (filled : name ≠ "") (clean : '\x00' ∉ name.toList)
    (whole : (ofChars name.toList).fullName = name) :
    split name = .ok (ofChars name.toList) := by
  rw [split]
  exact if_neg (by simp [filled, clean, whole])

/-- Storable names can be split. -/
theorem split_of_isStorable (h : IsStorable name) : split name = .ok (ofChars name.toList) := by
  refine split_eq_ok_ofChars h.filled h.clean (String.toList_inj.1 ?_)
  rw [fullName_ofChars_iff, ← shape_iff]
  exact h.shape

theorem isStorable_of_split (h : split name = .ok p) : IsStorable name := by
  have whole := fullName_of_split h
  obtain rfl := eq_ofChars_of_split h
  rw [split] at h
  split at h
  · cases h
  next good =>
  simp only [not_or] at good
  refine ⟨good.1, good.2.1, ?_⟩
  rw [shape_iff, ← fullName_ofChars_iff, whole]

/-! ### Parts of names -/

/-- The parts that names are split into. They are not all empty and hold no NUL; only the parent has
    slashes, and none in front where there is no module; and the last dot of a file is the one before its
    extension, if it has one, and else not an inner one. -/
structure IsCanonical (p : NameParts) : Prop where
  filled : ∃ part ∈ [p.module, p.parent, p.base, p.extension], part ≠ ""
  clean : ∀ part ∈ [p.module, p.parent, p.base, p.extension], '\x00' ∉ part.toList
  unslashed : ∀ part ∈ [p.module, p.base, p.extension], '/' ∉ part.toList
  isRelative : p.module = "" → p.parent.toList.head? ≠ some '/'
  dotted : p.extension ≠ "" ∧ '.' ∉ p.extension.toList ∧ p.base ≠ ""
    ∨ p.extension = "" ∧ ¬HasInnerDot p.base.toList

theorem mem_framed {before part after : String} {c : Char} (front : c ∉ before.toList)
    (back : c ∉ after.toList) : c ∈ (framed before part after).toList ↔ c ∈ part.toList := by
  rw [toList_framed]
  split_ifs with none
  · simp [none]
  · simp [front, back]

/-- A full name is made of the characters of its parts, and of slashes and dots. -/
theorem mem_fullName {c : Char} (slash : c ≠ '/') (dot : c ≠ '.') :
    c ∈ p.fullName.toList ↔ ∃ part ∈ [p.module, p.parent, p.base, p.extension], c ∈ part.toList := by
  have none : c ∉ "".toList := List.not_mem_nil
  have noSlash : c ∉ "/".toList := by simpa using slash
  have noDot : c ∉ ".".toList := by simpa using dot
  rw [toList_fullName, pathChars, fileChars, String.toList_append]
  simp only [List.mem_append, mem_framed noSlash noSlash, mem_framed none noSlash,
    mem_framed noDot none]
  simp

theorem slash_mem_fileChars :
    '/' ∈ p.fileChars ↔ '/' ∈ p.base.toList ∨ '/' ∈ p.extension.toList := by
  rw [fileChars, String.toList_append, List.mem_append, mem_framed (by decide) (by decide)]

theorem fullName_eq_empty :
    p.fullName = "" ↔ ∀ part ∈ [p.module, p.parent, p.base, p.extension], part = "" := by
  simp only [fullName, framed]
  split_ifs <;> simp_all

/-- Names are split into canonical parts. -/
theorem isCanonical_of_split (h : split name = .ok p) : p.IsCanonical := by
  have storable := isStorable_of_split h
  have whole := fullName_of_split h
  obtain rfl := eq_ofChars_of_split h
  refine ⟨?_, ?_, ?_, ?_, ?_⟩
  · have filled := storable.filled
    rw [← whole, Ne, fullName_eq_empty] at filled
    push Not at filled
    exact filled
  · intro part hp zero
    refine storable.clean ?_
    rw [← whole, mem_fullName (by decide) (by decide)]
    exact ⟨part, hp, zero⟩
  · have file : '/' ∉ (ofChars name.toList).fileChars := by
      rw [fileChars_ofChars]
      obtain ⟨unslashed, same⟩ | ⟨parent, file, -, last, same⟩ :=
        takeParent_cases (takeModule name.toList).2
      · rwa [same]
      · rwa [same]
    have module : '/' ∉ (ofChars name.toList).module.toList := by
      rw [module_ofChars, String.toList_ofList]
      obtain ⟨-, same⟩ | ⟨path, -, -, same⟩ | ⟨module, path, -, unslashed, same⟩ :=
        takeModule_cases name.toList
      · simp [same]
      · simp [same]
      · rwa [same]
    rw [slash_mem_fileChars, not_or] at file
    simpa using ⟨module, file⟩
  · intro none rooted
    rcases storable.shape with isRelative | shape
    · refine isRelative ?_
      obtain ⟨rest, parent⟩ := List.head?_eq_some_iff.1 rooted
      have some : (ofChars name.toList).parent ≠ "" := by
        intro empty
        rw [empty] at parent
        cases parent
      rw [← whole, toList_fullName, pathChars, toList_framed, toList_framed, if_pos none, if_neg some,
        parent]
      rfl
    · rw [module_ofChars, String.ofList_eq_empty_iff] at none
      exact (shape_iff.1 shape).1 none
  · rw [base_ofChars, extension_ofChars]
    obtain ⟨inner, same⟩ | ⟨base, ext, -, filled, some, undotted, same⟩ :=
      takeExtension_cases (takeParent (takeModule name.toList).2).2
    · exact .inr (by simpa [same] using inner)
    · exact .inl (by simp [same, filled, some, undotted])

section Canonical

variable (h : p.IsCanonical)
include h

theorem takeExtension_fileChars :
    takeExtension p.fileChars = (p.base.toList, p.extension.toList) := by
  rw [fileChars, String.toList_append, toList_framed]
  obtain ⟨some, undotted, filled⟩ | ⟨none, inner⟩ := h.dotted
  · have some' : p.extension.toList ≠ [] := by simpa using some
    have filled' : p.base.toList ≠ [] := by simpa using filled
    simpa [some] using takeExtension_append filled' some' undotted
  · simpa [none] using takeExtension_of_not_hasInnerDot inner

theorem slash_not_mem_fileChars : '/' ∉ p.fileChars := by
  rw [slash_mem_fileChars, not_or]
  exact ⟨h.unslashed _ (by simp), h.unslashed _ (by simp)⟩

theorem takeParent_pathChars : takeParent p.pathChars = (p.parent.toList, p.fileChars) := by
  have last := slash_not_mem_fileChars h
  rw [pathChars, toList_framed]
  split_ifs with none
  · rw [none, List.nil_append, takeParent, breakLast_of_not_mem last]
    rfl
  · have path : "".toList ++ p.parent.toList ++ "/".toList ++ p.fileChars
        = p.parent.toList ++ '/' :: p.fileChars := by simp
    rw [path, takeParent, breakLast_append last]
    rfl

theorem head?_pathChars (none : p.module = "") : p.pathChars.head? ≠ some '/' := by
  have isRelative := h.isRelative none
  rw [pathChars, toList_framed]
  split_ifs with direct
  · exact fun rooted => slash_not_mem_fileChars h (List.mem_of_head? rooted)
  · rcases parent : p.parent.toList with _ | ⟨c, rest⟩
    · exact absurd (String.toList_eq_nil_iff.1 parent) direct
    · rw [parent] at isRelative
      exact isRelative

theorem takeModule_fullName : takeModule p.fullName.toList = (p.module.toList, p.pathChars) := by
  have unslashed : '/' ∉ p.module.toList := h.unslashed _ (by simp)
  rw [toList_fullName, toList_framed]
  split_ifs with none
  · rw [none, List.nil_append, takeModule_of_isRelative (head?_pathChars h none)]
    rfl
  · have chars : "/".toList ++ p.module.toList ++ "/".toList ++ p.pathChars
        = '/' :: (p.module.toList ++ '/' :: p.pathChars) := by simp
    rw [chars, takeModule_append unslashed]

/-- Canonical parts are the ones that their full name is split into. -/
theorem split_fullName : split p.fullName = .ok p := by
  have parts : ofChars p.fullName.toList = p := by
    simp only [ofChars, takeModule_fullName h, takeParent_pathChars h, takeExtension_fileChars h,
      String.ofList_toList]
  have filled : p.fullName ≠ "" := by
    rw [Ne, fullName_eq_empty]
    push Not
    exact h.filled
  have clean : '\x00' ∉ p.fullName.toList := by
    rw [mem_fullName (by decide) (by decide)]
    rintro ⟨part, hp, zero⟩
    exact h.clean part hp zero
  rw [split_eq_ok_ofChars filled clean (by rw [parts]), parts]

end Canonical

/-- Splitting is a bijection between the names that can be stored and the canonical parts, and making up
    the full name is its inverse. Any other name is refused. -/
theorem split_bijective (name : String) :
    ((split name).isOk ↔ IsStorable name)
    ∧ (split name = .error (.invalidName name) ↔ ¬IsStorable name)
    ∧ ∀ p, split name = .ok p ↔ p.IsCanonical ∧ p.fullName = name := by
  have parted (p : NameParts) : split name = .ok p ↔ p.IsCanonical ∧ p.fullName = name := by
    constructor
    · intro h
      exact ⟨isCanonical_of_split h, fullName_of_split h⟩
    · rintro ⟨canonical, rfl⟩
      exact split_fullName canonical
  refine ⟨⟨?_, ?_⟩, ⟨?_, ?_⟩, parted⟩
  · intro h
    obtain ⟨p, h⟩ := eq_ok_of_isOk h
    exact isStorable_of_split h
  · intro storable
    rw [split_of_isStorable storable]
    rfl
  · intro h storable
    rw [split_of_isStorable storable] at h
    cases h
  · intro refused
    rcases h : split name with e | p
    · rw [split_error h]
    · exact absurd (isStorable_of_split h) refused

end NameParts

end ResourceArchive
