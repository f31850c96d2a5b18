import Mathlib.Data.Set.List
import ResourceArchive.Proofs.Conflicts
import ResourceArchive.Proofs.Parts

/-! Names of packed files. The name of a file is made of the names on the way to it, the first of them as
    its module. Whatever dots and spaces they hold, the name can be stored, and it is extracted by the same
    way again. So paths have the same name exactly if they have the same components. -/

namespace ResourceArchive

namespace Packing

open ResourceArchive.Path (segments unsegment slash dot)

variable {dest : Path} {texts : List String}

/-! ### From ways to names -/

/-- The name of a file, from the names on the way to it. -/
def nameOf : List String → String
  | [] => ""
  | [file] => file
  | module :: rest => "/" ++ module ++ "/" ++ "/".intercalate rest

theorem utf8_intercalate (texts : List String) :
    utf8 ("/".intercalate texts) = unsegment (texts.map utf8) := by
  induction texts with
  | nil => rfl
  | cons t rest ih =>
    rcases rest with _ | ⟨u, rest⟩
    · rw [String.intercalate_singleton]
      rfl
    · rw [String.intercalate_cons_cons, utf8_append, utf8_append, ih, List.append_assoc]
      exact (Path.unsegment_cons (utf8 t) (List.cons_ne_nil _ _)).symm

/-- The bytes of a name are those of the way, after a slash if there are several names on it. -/
theorem utf8_nameOf (texts : List String) : utf8 (nameOf texts)
    = (if 1 < texts.length then [slash] else []) ++ unsegment (texts.map utf8) := by
  rcases texts with _ | ⟨t, _ | ⟨u, rest⟩⟩
  · rfl
  · rfl
  · have several : 1 < (t :: u :: rest).length := by simp
    have name : nameOf (t :: u :: rest) = "/" ++ t ++ "/" ++ "/".intercalate (u :: rest) := rfl
    rw [name, if_pos several, utf8_append, utf8_append, utf8_append, utf8_intercalate,
      List.append_assoc, List.append_assoc]
    exact congrArg (slash :: ·) (Path.unsegment_cons (utf8 t) (List.cons_ne_nil _ _)).symm

theorem part_eq_ok {p : Path} {c : Component} {t : String} :
    part p c = .ok t ↔ c = .name (utf8 t) := by
  constructor
  · intro named
    cases c with
    | name bytes =>
      rw [part] at named
      rcases text : text? bytes with _ | s
      · rw [text] at named
        cases named
      · rw [text] at named
        cases named
        rw [utf8_of_text? text]
    | root | here | up => cases named
  · rintro rfl
    rw [part, text?_utf8]

theorem mapM_part_eq_ok {p : Path} {cs : List Component} :
    cs.mapM (part p) = .ok texts ↔ cs = texts.map fun t => .name (utf8 t) := by
  rw [mapM_eq_ok]
  induction cs generalizing texts with
  | nil => cases texts <;> simp
  | cons c cs ih =>
    cases texts with
    | nil => simp
    | cons t texts =>
      rw [List.map_cons, List.map_cons, List.map_cons, List.cons.injEq, part_eq_ok, ih, List.cons.injEq]

/-- A path has a name if its components are names that are texts, of which there is at least one. -/
theorem resourceName_eq_ok {p : Path} {name : String} : resourceName p = .ok name
    ↔ ∃ texts, texts ≠ [] ∧ p.components = texts.map (fun t => .name (utf8 t))
      ∧ name = nameOf texts := by
  have given {texts : List String} (components : p.components = texts.map fun t => .name (utf8 t)) :
      resourceName p = if texts = [] then .error .emptyPath else .ok (nameOf texts) := by
    rw [resourceName, mapM_part_eq_ok.2 components]
    rcases texts with _ | ⟨t, _ | ⟨u, rest⟩⟩ <;> rfl
  constructor
  · intro named
    rcases each : p.components.mapM (part p) with e | texts
    · rw [resourceName, each] at named
      cases named
    · have components := mapM_part_eq_ok.1 each
      rw [given components] at named
      split at named
      · cases named
      · next filled =>
        cases named
        exact ⟨texts, filled, components, rfl⟩
  · rintro ⟨texts, filled, components, rfl⟩
    rw [given components, if_neg filled]

section Way

variable (named : ∀ t ∈ texts, IsFileName (utf8 t))
include named

/-- A way does not begin with a slash. -/
theorem head?_ne_slash : ("/".intercalate texts).toList.head? ≠ some '/' := by
  intro slashed
  obtain ⟨cs, chars⟩ := List.head?_eq_some_iff.1 slashed
  have bytes := utf8_eq_flatMap ("/".intercalate texts)
  rw [chars, utf8_intercalate] at bytes
  have names : ∀ n ∈ texts.map utf8, IsFileName n := by simpa using named
  have isRelative := Path.isAbsolute_ofNames names
  rw [Path.isAbsolute, Path.ofNames, bytes] at isRelative
  cases isRelative

theorem relative_nameOf : Extraction.relative (nameOf texts) = Path.ofNames (texts.map utf8) := by
  have names : ∀ n ∈ texts.map utf8, IsFileName n := by simpa using named
  have isRelative := Path.isAbsolute_ofNames names
  have whole : (Path.ofNames (texts.map utf8)).bytes.dropWhile (· == slash)
      = (Path.ofNames (texts.map utf8)).bytes := by
    rw [Path.isAbsolute] at isRelative
    generalize (Path.ofNames (texts.map utf8)).bytes = bytes at isRelative ⊢
    rcases bytes with _ | ⟨b, bs⟩
    · rfl
    · exact List.dropWhile_cons_of_neg (by simpa using isRelative)
  have dropped : (utf8 (nameOf texts)).dropWhile (· == slash)
      = (Path.ofNames (texts.map utf8)).bytes.dropWhile (· == slash) := by
    rw [utf8_nameOf]
    split <;> rfl
  rw [Extraction.relative, dropped, whole]

variable (filled : texts ≠ [])
include filled

/-- The way on which a file is extracted is the one on which it was packed. -/
theorem below_nameOf : Extraction.below (nameOf texts) = texts.map utf8 := by
  have names : ∀ n ∈ texts.map utf8, IsFileName n := by simpa using named
  rw [Extraction.below, relative_nameOf named, Path.segments_ofNames names (by simpa using filled),
    List.filter_eq_self]
  intro n hn
  simpa using (names n hn).ne_dot

theorem isStorable_nameOf : NameParts.IsStorable (nameOf texts) := by
  have names : ∀ n ∈ texts.map utf8, IsFileName n := by simpa using named
  have clean : '\x00' ∉ (nameOf texts).toList := by
    have bytes : 0 ∉ unsegment (texts.map utf8) := Path.no_zero_ofNames names
    rw [← zero_mem_utf8, utf8_nameOf]
    split <;> simp [slash, bytes]
  have some {t : String} (ht : t ∈ texts) : t ≠ "" := by
    rintro rfl
    exact (named _ ht).ne_nil rfl
  rcases texts with _ | ⟨t, _ | ⟨u, rest⟩⟩
  · exact absurd rfl filled
  · exact ⟨some (.head _), clean, .inl (@head?_ne_slash [t] named)⟩
  · have isRelative : ("/".intercalate (u :: rest)).toList.head? ≠ Option.some '/' :=
      head?_ne_slash fun s hs => named s (.tail _ hs)
    refine ⟨by simp [nameOf], clean, .inr ⟨t, "/".intercalate (u :: rest), rfl, some (.head _), ?_, ?_⟩⟩
    · rw [← slash_mem_utf8]
      exact (named t (.head _)).no_slash
    · rintro ⟨file, path, -⟩
      exact isRelative (by simp [path])

theorem path_nameOf :
    Extraction.path dest (nameOf texts) = .ok (dest.join (Path.ofNames (texts.map utf8))) := by
  have names : ∀ n ∈ texts.map utf8, IsFileName n := by simpa using named
  have segs := Path.segments_ofNames names (by simpa using filled)
  rw [Extraction.path_eq_ok, relative_nameOf named, segs]
  refine ⟨fun n hn => ⟨(names n hn).ne_nil, (names n hn).ne_dots⟩, ?_, rfl⟩
  intro dotted
  exact (names _ (List.mem_of_head? dotted)).ne_dot rfl

/-- The first name on a way is the module, if others follow. -/
theorem split_nameOf : ∃ parts, NameParts.split (nameOf texts) = .ok parts
    ∧ parts.module = if 1 < texts.length then texts.head filled else "" := by
  refine ⟨_, NameParts.split_of_isStorable (isStorable_nameOf named filled), ?_⟩
  rw [NameParts.module_ofChars]
  rcases texts with _ | ⟨t, _ | ⟨u, rest⟩⟩
  · exact absurd rfl filled
  · have isRelative : (nameOf [t]).toList.head? ≠ some '/' := @head?_ne_slash [t] named
    rw [NameParts.takeModule_of_isRelative isRelative]
    rfl
  · have unslashed : '/' ∉ t.toList := by
      rw [← slash_mem_utf8]
      exact (named t (.head _)).no_slash
    have chars : (nameOf (t :: u :: rest)).toList
        = '/' :: (t.toList ++ '/' :: ("/".intercalate (u :: rest)).toList) :=
      NameParts.toList_slashed t _
    rw [chars, NameParts.takeModule_append unslashed, String.ofList_toList]
    rfl

theorem components_of_path_nameOf {p : Path}
    (found : Extraction.path dest (nameOf texts) = .ok p) :
    p.components = dest.components ++ texts.map fun t => .name (utf8 t) := by
  rw [Extraction.components_of_path found, below_nameOf named filled, List.map_map]
  rfl

end Way

/-! ### Paths and their names -/

/-- A path has a name exactly if it has components and all of them are names that are texts. The name can
    be stored, under the first component as its module if there are several; it is extracted by the
    components of the path, whatever the destination; and the paths that have it are those with the same
    components. -/
theorem resourceName_invertible {p : Path} (clean : 0 ∉ p.bytes) :
    ((∃ name, resourceName p = .ok name)
      ↔ p.components ≠ [] ∧ ∀ c ∈ p.components, ∃ t, c = .name (utf8 t))
    ∧ ∀ name, resourceName p = .ok name →
      (∃ parts, NameParts.split name = .ok parts
        ∧ (p.components.length = 1 → parts.module = "")
        ∧ (1 < p.components.length → p.components.head? = some (.name (utf8 parts.module))))
      ∧ (∀ dest, ∃ q, Extraction.path dest name = .ok q
          ∧ q.components = dest.components ++ p.components)
      ∧ ∀ q : Path, 0 ∉ q.bytes → (resourceName q = .ok name ↔ q.components = p.components) := by
  have fileNames {p : Path} {texts : List String} (clean : 0 ∉ p.bytes)
      (components : p.components = texts.map fun t => .name (utf8 t)) :
      ∀ t ∈ texts, IsFileName (utf8 t) := fun t ht =>
    Path.isFileName_of_mem_components clean (components ▸ List.mem_map_of_mem ht)
  constructor
  · constructor
    · rintro ⟨name, named⟩
      obtain ⟨texts, filled, components, -⟩ := resourceName_eq_ok.1 named
      rw [components]
      refine ⟨by simpa using filled, fun c hc => ?_⟩
      obtain ⟨t, -, rfl⟩ := List.mem_map.1 hc
      exact ⟨t, rfl⟩
    · rintro ⟨filled, each⟩
      obtain ⟨texts, components⟩ : p.components ∈ Set.range (List.map fun t => .name (utf8 t)) := by
        rw [Set.range_list_map]
        intro c hc
        obtain ⟨t, rfl⟩ := each c hc
        exact ⟨t, rfl⟩
      refine ⟨_, resourceName_eq_ok.2 ⟨texts, ?_, components.symm, rfl⟩⟩
      rintro rfl
      exact filled components.symm
  · intro name named
    obtain ⟨texts, filled, components, rfl⟩ := resourceName_eq_ok.1 named
    have names := fileNames clean components
    refine ⟨?_, fun dest => ?_, fun q clean' => ⟨fun named' => ?_, fun same => ?_⟩⟩
    · obtain ⟨parts, stored, module⟩ := split_nameOf names filled
      rw [components, List.length_map, List.head?_map, List.head?_eq_some_head filled]
      refine ⟨parts, stored, fun one => ?_, fun several => ?_⟩
      · rw [module, if_neg (by omega)]
      · rw [module, if_pos several]
        rfl
    · exact ⟨_, path_nameOf names filled,
        components ▸ components_of_path_nameOf names filled (path_nameOf names filled)⟩
    · obtain ⟨texts', filled', components', same⟩ := resourceName_eq_ok.1 named'
      have ways := below_nameOf (fileNames clean' components') filled'
      rw [← same, below_nameOf names filled] at ways
      have turned := congrArg (List.map Component.name) ways
      rw [List.map_map, List.map_map] at turned
      rw [components, components']
      exact turned.symm
    · exact resourceName_eq_ok.2 ⟨texts, filled, same.trans components, rfl⟩

/-- A path with slashes and dots that are no components, and names with dots and a space. -/
theorem resourceName_invertible_spelling :
    (∃ parts, NameParts.split "/m/ .b/..." = .ok parts ∧ parts.module = "m")
    ∧ (∃ q, Extraction.path (.ofString "/x/../") "/m/ .b/..." = .ok q
        ∧ q.components = [.root, .name (utf8 "x"), .up, .name (utf8 "m"), .name (utf8 " .b"),
          .name (utf8 "...")])
    ∧ resourceName (.ofString "m/ .b//...") = .ok "/m/ .b/..." := by
  have named : resourceName (.ofString "m//./ .b/.../") = .ok "/m/ .b/..." := by decide +kernel
  obtain ⟨-, name⟩ := resourceName_invertible (p := .ofString "m//./ .b/.../") (by decide +kernel)
  obtain ⟨⟨parts, stored, -, module⟩, extracted, same⟩ := name _ named
  refine ⟨⟨parts, stored, ?_⟩, extracted _, (same _ (by decide +kernel)).2 (by decide +kernel)⟩
  have first := module (by decide +kernel)
  have there : (Path.ofString "m//./ .b/.../").components.head? = some (.name (utf8 "m")) := by
    decide +kernel
  rw [there] at first
  exact (utf8_inj.1 (Component.name.inj (Option.some.inj first))).symm

end Packing

/-! ### Names of files -/

/-- A file name that is a text. -/
structure IsTextName (name : Bytes) : Prop extends IsFileName name where
  text : ∃ s, utf8 s = name

/-- A name under which the file at the end of a way is packed, and from which it is extracted. -/
structure Packing.Names (name : String) (way : List Bytes) : Prop where
  filled : way ≠ []
  fileNames : ∀ n ∈ way, IsFileName n
  resourceName : resourceName (Path.ofNames way) = .ok name
  storable : (NameParts.split name).isOk
  below : Extraction.below name = way
  relative : Extraction.relative name = Path.ofNames way
  path : ∀ dest, Extraction.path dest name = .ok (dest.join (Path.ofNames way))

end ResourceArchive
