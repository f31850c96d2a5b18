import Mathlib.Data.List.Induction
import ResourceArchive.Proofs.Ancestors
import ResourceArchive.Proofs.Extraction

/-! Destinations that are not there yet. A directory can be made at the end of a path with all it is in, even
    if the path goes up again from what is missing, as in `x/../y`. What is extracted to such a destination
    is written as if the directory had been made before: until then, nothing on a path below it is more than
    missing. -/

namespace ResourceArchive

/-- A directory in which nothing has a name is empty. -/
theorem Node.eq_empty {n : Node} (directory : n.isDirectory) (bare : ∀ name, n.child? name = none) :
    n = .empty := by
  cases n with
  | directory entries =>
    rcases entries with _ | ⟨⟨name, m⟩, rest⟩
    · rfl
    · have held := bare name
      simp [child?] at held
  | _ => cases directory

namespace FileSystem

open FileAccess
open ResourceArchive.Path (Step)

variable {fs fs' fs₁ fs₂ : FileSystem} {root root' : Node} {pos pos' q : Position} {purpose : Purpose}
  {head tail steps : List Step} {links n : Nat} {p dest : Path} {place base : Place} {names : List Bytes}
  {name : Bytes} {r : Stretch}

/-! ### What was missing -/

/-- Before a tree grew, steps with more steps after them led where they lead now, or something on the way
    was missing. -/
theorem stretch_shrinks (h : purpose ≠ .canonical) (grows : root.Grows root')
    (alike : pos.Alike root root' pos') (some : tail ≠ []) (unclosed : purpose = .write → tail ≠ [.slash])
    (led : stretch .look pos' head = .ok r) :
    stretch purpose pos (head ++ tail) = .error .noSuchFile
      ∨ ∃ r₀, stretch .look pos head = .ok r₀ ∧ r₀.Grown root root' r := by
  induction head generalizing pos pos' with
  | nil =>
    cases led
    exact .inr ⟨_, rfl, .done (.present alike)⟩
  | cons step rest ih =>
    have directory' := isDirectory_of_stretch led
    have directory : pos.node.isDirectory := (alike.isDirectory_eq grows).symm.trans directory'
    rw [List.cons_append]
    cases step with
    | here | slash =>
      rw [stretch_stay directory' (by simp)] at led
      rw [stretch_stay directory (by simp), stretch_stay directory (by simp)]
      exact ih alike led
    | up =>
      rw [stretch_up directory'] at led
      rw [stretch_up directory, stretch_up directory]
      exact ih alike.up led
    | name name =>
      obtain ⟨kept', short, -⟩ := name_of_stretch (by decide) led
      have kept : pos.removed = 0 := alike.removed_eq.symm.trans kept'
      rw [stretch_name (by decide) directory' kept' short (by simp)] at led
      rw [stretch_name h directory kept short (not_claims_append some unclosed rest),
        stretch_name (by decide : Purpose.look ≠ .canonical) directory kept short (by simp)]
      rcases held : pos.node.child? name with _ | child
      · exact .inl (if_neg (by simp [some]))
      · obtain ⟨child', held', same⟩ := alike.child? grows held
        rw [held'] at led
        cases child with
        | link target =>
          rw [show Node.kind (.link target) = .link target from rfl, Node.kind_eq_link] at same
          subst same
          simp only [reduceCtorEq, and_false, if_false] at led ⊢
          cases led
          exact .inr ⟨_, rfl, .link alike target rest⟩
        | directory | file =>
          cases child' with
          | link => cases same
          | _ => exact ih (alike.down held held') led

/-- Before a tree grew, a path led where it leads now, or something on the way was missing. -/
theorem walk_shrinks (h : purpose ≠ .canonical) (grows : fs.root.Grows fs'.root)
    (alike : pos.Alike fs.root fs'.root pos') (some : tail ≠ [])
    (unclosed : purpose = .write → tail ≠ [.slash])
    (led : fs'.walk .look links pos' head = .ok (.present q)) :
    fs.walk purpose links pos (head ++ tail) = .error .noSuchFile
      ∨ ∃ q₀, fs.walk .look links pos head = .ok (.present q₀) ∧ q₀.Alike fs.root fs'.root q := by
  induction links using Nat.strongRecOn generalizing pos pos' head with
  | ind links ih =>
    rw [walk] at led
    rcases stretched : stretch .look pos' head with e | r
    · rw [stretched] at led
      cases led
    rw [stretched] at led
    rcases stretch_shrinks h grows alike some unclosed stretched with missing | ⟨r₀, found, grown⟩
    · exact .inl (by rw [walk, missing])
    cases grown with
    | done grown =>
      cases led
      cases grown with
      | present alike => exact .inr ⟨_, by rw [walk, found], alike⟩
      | filled => exact .inl (by rw [walk, stretch_append h some unclosed found, Stretch.goOn])
    | link alike target rest =>
      rcases links with _ | links
      · cases led
      rw [walk, stretch_append h some unclosed found, Stretch.goOn, walk, found]
      simp only [← List.append_assoc]
      refine ih links (Nat.lt_succ_self links) ?_ led
      split
      · exact .atRoot _ _
      · exact alike

theorem start_shrinks (grows : fs.Grows fs') (begins : fs'.start p = .ok pos') :
    fs.start p = .error .noSuchFile
      ∨ ∃ pos, fs.start p = .ok pos ∧ pos.Alike fs.root fs'.root pos' := by
  rcases began : fs.start p with e | pos
  · left
    rw [start] at began begins
    split at began
    · next zero => simp only [zero, if_true, reduceCtorEq] at begins
    · split at began
      · exact began.symm
      · split at began
        · cases began
        · split at began
          · cases began
          · exact began.symm
  · obtain ⟨pos'', begins', alike⟩ := start_grows began grows.tree grows.workingDirectory
    cases begins.symm.trans begins'
    exact .inr ⟨pos, rfl, alike⟩

/-! ### Ways down -/

/-- Names by which one can go down from a path. -/
structure IsWay (dest : Path) (names : List Bytes) : Prop where
  named : ∀ n ∈ names, IsFileName n
  short : ∀ n ∈ names, n.length ≤ nameLimit
  fits : (dest.along names).bytes.length ≤ pathLimit

theorem IsWay.above (way : IsWay dest (names ++ [name])) : IsWay dest names where
  named n hn := way.named n (List.mem_append_left _ hn)
  short n hn := way.short n (List.mem_append_left _ hn)
  fits := by
    have isRelative := Path.isAbsolute_name (way.named name (by simp))
    have front := Path.front_join (dest.along names) isRelative
    rw [← Path.along_concat] at front
    exact Nat.le_trans front.length_le way.fits

theorem Down.of_names (short : ∀ n ∈ names, n.length ≤ nameLimit) : Down (names.map .name) names := by
  induction names with
  | nil => exact .nil
  | cons n names ih =>
    rw [List.forall_mem_cons] at short
    exact .name short.1 (ih short.2)

/-- A path that goes to a directory and on down goes further down. -/
theorem descends_along {front : List Bytes} (begins : fs.start dest = .ok pos)
    (parts : dest.baseSteps = head ++ tail) (leads : fs.Leads pos head base) (down : Down tail front)
    (way : IsWay dest (names ++ [name])) :
    fs.Descends (dest.along (names ++ [name])) base (front ++ (names ++ [name])) := by
  have filled : names ++ [name] ≠ [] := by simp
  have fits := way.fits
  have isRelative := Path.isAbsolute_ofNames way.named
  have unclosed := Path.endsInSlash_join_ofNames way.named dest filled
  rw [dest.along_eq way.named filled] at fits ⊢
  refine .intro pos head (tail ++ names.map .name) name ?_ fits ?_ unclosed leads ?_
  · exact start_join begins isRelative (Path.no_zero_ofNames way.named)
  · rw [Path.baseSteps_join_ofNames way.named dest, parts]
    simp
  · have steps := down.append (Down.of_names way.short)
    rw [List.map_append] at steps
    simpa using steps

/-! ### Destinations that can be made -/

/-- The directory at the end of a path is made, with all it is in that is not there, and is empty. -/
structure Makes (fs : FileSystem) (dest : Path) (place : Place) (fs₁ : FileSystem) : Prop where
  made : (createDirectories dest.bare : StateM FileSystem (Except SystemError Unit)) fs = (.ok (), fs₁)
  there : ∃ pos, fs₁.locate .look dest = .ok pos ∧ pos.place = place ∧ pos.removed = 0
    ∧ pos.node = .empty

namespace Makes

variable (makes : fs.Makes dest place fs₁)
include makes

theorem grows : fs.Grows fs₁ := (createLevels_ok makes.made).1

theorem contents_eq : fs₁.contents = fs.contents := (createLevels_ok makes.made).2.1

/-- The way to the directory. -/
theorem leads : ∃ pos, fs₁.start dest = .ok pos ∧ fs₁.Leads pos dest.baseSteps place := by
  obtain ⟨q, found, there, kept, bare⟩ := makes.there
  obtain ⟨pos, begins, led⟩ := walk_of_locate found
  have isIn := isIn_of_walk (by decide) (isIn_of_start begins) led
  exact ⟨pos, begins, q, led, isIn, by rw [bare]; rfl, kept, there⟩

theorem kind?_place : fs₁.kind? place = some .directory := by
  obtain ⟨pos, -, leads⟩ := makes.leads
  exact leads.kind?_eq

theorem kind?_below {rest : List Bytes} (some : rest ≠ []) : fs₁.kind? (place ++ rest) = none := by
  obtain ⟨q, found, there, -, bare⟩ := makes.there
  obtain ⟨pos, begins, led⟩ := walk_of_locate found
  have isIn := isIn_of_walk (by decide) (isIn_of_start begins) led
  obtain ⟨n, rest, rfl⟩ := List.exists_cons_of_ne_nil some
  rw [kind?, Node.kindAt, Node.at?_append, ← there, isIn.at?, bare]
  rfl

theorem clear (names : List Bytes) : fs₁.Clear place names := by
  intro front _
  by_cases none : front = []
  · rw [none, List.append_nil]
    exact .inr makes.kind?_place
  · exact .inl (makes.kind?_below none)

theorem bytes_ne_nil : dest.bytes ≠ [] := by
  obtain ⟨q, found, -⟩ := makes.there
  obtain ⟨pos, begins, -⟩ := locate_eq_ok.1 found
  exact bytes_ne_nil_of_start begins

theorem descends (way : IsWay dest (names ++ [name])) :
    fs₁.Descends (dest.along (names ++ [name])) place (names ++ [name]) := by
  obtain ⟨pos, begins, leads⟩ := makes.leads
  exact descends_along begins (List.append_nil _).symm leads .nil way

variable (new : fs.kind? place = none)
include new

/-- Below a destination nothing is found before it is made. -/
theorem followSteps_missing (h : purpose ≠ .canonical) (way : IsWay dest (names ++ [name])) :
    fs.followSteps purpose (dest.along (names ++ [name])) (dest.along (names ++ [name])).baseSteps
      = .error .noSuchFile := by
  have filled : names ++ [name] ≠ [] := by simp
  have isRelative := Path.isAbsolute_ofNames way.named
  have fits := way.fits
  obtain ⟨pos', begins', q, led, isIn, -, -, there⟩ := makes.leads
  rw [dest.along_eq way.named filled] at fits ⊢
  have begins' := start_join begins' isRelative (Path.no_zero_ofNames way.named)
  rw [followSteps]
  rcases start_shrinks makes.grows begins' with missing | ⟨pos, begins, alike⟩
  · rw [missing]
  · rw [begins, Path.baseSteps_join_ofNames way.named dest]
    simp only [if_neg (Nat.not_lt.2 fits)]
    have some : (names ++ [name]).map Step.name ≠ [] := by simp
    have unclosed : (names ++ [name]).map Step.name ≠ [.slash] := by
      intro closed
      have last := congrArg List.getLast? closed
      simp at last
    refine (walk_shrinks h makes.grows.tree alike some (fun _ => unclosed) led).resolve_right ?_
    rintro ⟨q₀, -, alike⟩
    have held := alike.isIn.kindAt
    rw [← alike.place_eq, there, ← kind?, new] at held
    cases held

theorem missing (way : IsWay dest (names ++ [name])) :
    fs.createDirectory (dest.along (names ++ [name])) = .error .noSuchFile
      ∧ fs.isDirectory (dest.along (names ++ [name])) = false := by
  constructor
  · rw [createDirectory, resolveNew, makes.followSteps_missing new (by decide) way]
    rfl
  · rw [isDirectory, locate, resolve, (makes.descends way).steps_eq,
      makes.followSteps_missing new (by decide) way]

end Makes

/-- Where a path lacks the first of the names by which it goes down, the directory at its end can be made. -/
theorem Lacks.makes (lacks : fs.Lacks dest base names) (named : IsFileName name)
    (short : name.length ≤ nameLimit) (fits : (dest.join ⟨name⟩).bytes.length ≤ pathLimit) :
    ∃ fs₁, fs.Makes dest (base ++ names) fs₁ := by
  have filled := lacks.ne_nil
  have clear : fs.Clear base names := by simpa using lacks.clear []
  have missing (n : Bytes) : fs.kind? (base ++ (names ++ [n])) = none :=
    lacks.kind?_below (List.prefix_refl _) (by simp)
  obtain ⟨pos, head, tail, begins, parts, leads, down, -⟩ := lacks
  have way : IsWay dest ([] ++ [name]) := ⟨by simpa using named, by simpa using short, fits⟩
  have d := descends_along begins parts leads down way
  obtain ⟨q, parent, dq⟩ := d.parent filled
  have begun := bytes_ne_nil_of_start begins
  obtain rfl : dest.bare = q := Option.some.inj ((Path.parent?_along begun way.named).symm.trans parent)
  obtain ⟨fs₁, made, opened⟩ := createDirectories_opened dq clear
  refine ⟨fs₁, made, ?_⟩
  obtain ⟨pos', begins', alike⟩ := start_grows begins opened.grows.tree opened.grows.workingDirectory
  obtain ⟨q, led, isIn, directory, kept, there⟩ :=
    (leads.grows alike opened.grows.tree).down down opened.made
  rw [← parts] at led
  have short' : dest.bytes.length ≤ pathLimit :=
    Nat.le_trans (Path.front_join dest (Path.isAbsolute_name named)).length_le fits
  refine ⟨q, locate_of_walk begins' short' led directory, there, kept,
    Node.eq_empty directory fun n => ?_⟩
  have free : fs₁.kind? (base ++ names ++ [n]) = none := by
    rw [List.append_assoc, opened.kept _ fun front => append_concat_ne, missing n]
  rwa [← there, kind?, isIn.kindAt_name, Option.map_eq_none_iff] at free

/-- On a path that goes up again, what it goes up from is made too. -/
example : ∃ fs₁, ({} : FileSystem).Makes (Path.ofString "x/../y") [utf8 "y"] fs₁
    ∧ fs₁.kind? [utf8 "x"] = some .directory :=
  ⟨_, ⟨rfl, _, rfl, rfl, rfl, rfl⟩, rfl⟩

end FileSystem

namespace Command

open FileSystem FileAccess

variable {fs fs₁ : FileSystem} {a : Archive} {handle : FileId} {dest : Path} {place : Place}
  {content : Location → Content} {resources : List (Location × Path)}

section Below

variable (names : Location → List Bytes) (makes : fs.Makes dest place fs₁) (known : handle < fs.contents.size)
  (paths : ∀ r ∈ resources, r.2 = dest.along (names r.1))
  (ways : ∀ r ∈ resources, names r.1 ≠ [] ∧ IsWay dest (names r.1))
  (held : ∀ r ∈ resources, a.read (fs.content handle) r.1 = .ok (content r.1))
  (apart : resources.Pairwise fun r s => Apart (names r.1) (names s.1))
include makes known paths ways held apart

end Below

end Command

end ResourceArchive
