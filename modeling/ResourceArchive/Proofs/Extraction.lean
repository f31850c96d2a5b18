import ResourceArchive.Command.Run
import ResourceArchive.Proofs.Conflicts
import ResourceArchive.Proofs.Files

/-! Extracting resources. Where the places of the resources are free and none is below another, each
    resource is written to its place, the directories above are made, and all else stays. -/

namespace ResourceArchive

namespace FileSystem

variable {fs fs₁ fs₂ : FileSystem} {base place : Place} {names : List Bytes} {name : Bytes} {p : Path}
  {content : Content}

/-! ### Destinations -/

/-- A path that goes to a directory and on down by names, of which the directory lacks the first. -/
inductive Lacks (fs : FileSystem) (dest : Path) (base : Place) (names : List Bytes) : Prop where
  | intro (pos : Position) (head tail : List Path.Step) (begins : fs.start dest = .ok pos)
      (parts : dest.baseSteps = head ++ tail) (leads : fs.Leads pos head base)
      (down : Down tail names) (free : fs.kind? (base ++ names.take 1) = none)

/-- Plain segments go down by those of them that are no dots. -/
theorem Down.of_isPlain {segs : List Bytes} (plain : Extraction.IsPlain segs)
    (short : ∀ n ∈ segs.filter (· ≠ [Path.dot]), n.length ≤ nameLimit) :
    Down (segs.filterMap Path.step?) (segs.filter (· ≠ [Path.dot])) := by
  rw [Extraction.filterMap_step? plain]
  induction segs with
  | nil => exact .nil
  | cons s segs ih =>
    have plain' : Extraction.IsPlain segs := fun s hs => plain s (.tail _ hs)
    by_cases dotted : s = [Path.dot]
    · rw [List.map_cons, if_pos dotted, List.filter_cons_of_neg (by simpa using dotted)] at *
      exact .here (ih plain' short)
    · rw [List.map_cons, if_neg dotted, List.filter_cons_of_pos (by simpa using dotted)] at *
      exact .name (short s (.head _)) (ih plain' fun n hn => short n (.tail _ hn))

/-- What is seen from a directory begins where the path of the directory does. -/
theorem start_join {dest q : Path} {pos : Position} (begins : fs.start dest = .ok pos)
    (isRelative : q.isAbsolute = false) (clean : 0 ∉ q.bytes) : fs.start (dest.join q) = .ok pos := by
  rw [start] at begins
  split at begins
  · cases begins
  · next clean' =>
    split at begins
    · cases begins
    · next some =>
      have clean'' : ¬(dest.join q).bytes.contains 0 := by
        rw [List.contains_iff_mem] at clean' ⊢
        rw [Path.join, isRelative, if_neg Bool.false_ne_true]
        split
        · simp [clean, clean']
        · simp [clean, clean', Path.slash]
      have some' : (dest.join q).bytes ≠ [] := fun none =>
        some (List.prefix_nil.1 (none ▸ Path.front_join dest isRelative))
      rw [start, if_neg clean'', if_neg some', Path.isAbsolute_join some isRelative]
      exact begins

/-- Nothing is below what is not there. -/
theorem kind?_append_of_none (free : fs.kind? place = none) (rest : List Bytes) :
    fs.kind? (place ++ rest) = none := by
  rw [kind?, Node.kindAt, Option.map_eq_none_iff] at free ⊢
  rw [Node.at?_append, free, Option.bind_none]

namespace Lacks

variable {dest : Path}

theorem kind?_base (lacks : fs.Lacks dest base names) : fs.kind? base = some .directory := by
  obtain ⟨_, _, _, _, _, leads, _, _⟩ := lacks
  exact leads.kind?_eq

/-- From the first name on nothing is there. -/
theorem kind?_below (lacks : fs.Lacks dest base names) {front more : List Bytes}
    (below : front <+: names ++ more) (some : front ≠ []) : fs.kind? (base ++ front) = none := by
  have directory := lacks.kind?_base
  obtain ⟨_, _, _, _, _, _, _, free⟩ := lacks
  rcases names with _ | ⟨first, names⟩
  · rw [List.take_nil, List.append_nil, directory] at free
    cases free
  · rcases front with _ | ⟨first', front⟩
    · exact absurd rfl some
    · obtain ⟨rfl, -⟩ := List.cons_prefix_cons.1 below
      have deeper := kind?_append_of_none free front
      simpa using deeper

theorem clear (lacks : fs.Lacks dest base names) (more : List Bytes) :
    fs.Clear base (names ++ more) := by
  intro front below
  by_cases none : front = []
  · rw [none, List.append_nil]
    exact .inr lacks.kind?_base
  · exact .inl (lacks.kind?_below below none)

theorem ne_nil (lacks : fs.Lacks dest base names) : names ≠ [] := by
  rintro rfl
  have directory := lacks.kind?_base
  obtain ⟨_, _, _, _, _, _, _, free⟩ := lacks
  rw [List.take_nil, List.append_nil, directory] at free
  cases free

/-- A name that the root lacks, seen from there. -/
theorem of_name (begins : fs.workingDirectory = {}) (directory : fs.root.isDirectory)
    (named : IsFileName name) (short : name.length ≤ nameLimit) (free : fs.kind? [name] = none) :
    fs.Lacks ⟨name⟩ [] [name] := by
  have whole : (⟨name⟩ : Path) = Path.ofNames [name] := rfl
  have names : ∀ n ∈ [name], IsFileName n := by simpa using named
  have start : fs.start ⟨name⟩ = .ok { node := fs.root } := by
    have clean : ¬name.contains 0 := by simpa using named.no_zero
    rw [FileSystem.start, if_neg clean, if_neg named.ne_nil, whole, Path.isAbsolute_ofNames names, begins]
    rfl
  refine .intro { node := fs.root } [] [.name name] start ?_ ?_ (.name short .nil) free
  · rw [whole, Path.baseSteps_ofNames names]
    rfl
  · exact ⟨_, rfl, Position.isIn_root _, directory, rfl, rfl⟩

/-- The path of a resource goes down from the destination's base, if it can be looked up and does not end
    by staying. -/
theorem descends (lacks : fs.Lacks dest base names) {resource : String}
    (accepted : Extraction.path dest resource = .ok p)
    (undotted : (Path.segments (Extraction.relative resource).bytes).getLast? ≠ some [Path.dot])
    (clean : 0 ∉ (Extraction.relative resource).bytes) (fits : p.bytes.length ≤ pathLimit)
    (short : ∀ n ∈ Extraction.below resource, n.length ≤ nameLimit) :
    fs.Descends p base (names ++ Extraction.below resource) := by
  obtain ⟨plain, head, rfl⟩ := Extraction.path_eq_ok.1 accepted
  obtain ⟨pos, dhead, dtail, begins, parts, leads, down, free⟩ := lacks
  have isRelative := Extraction.relative_isAbsolute (Extraction.not_mem_of_isPlain plain)
  obtain ⟨init, last, split⟩ : ∃ init last,
      Path.segments (Extraction.relative resource).bytes = init ++ [last] :=
    ⟨_, _, (List.dropLast_append_getLast (Path.segments_ne_nil _)).symm⟩
  have last_ne : last ≠ [Path.dot] := by
    rintro rfl
    exact undotted (by rw [split, List.getLast?_concat])
  have last_step : Path.step? last = some (.name last) := by
    obtain ⟨some, notDots⟩ := plain last (by rw [split]; simp)
    rw [Extraction.step?_eq some notDots, if_neg last_ne]
  have ends : (Extraction.relative resource).baseSteps
      = init.filterMap Path.step? ++ [.name last] := by
    rw [Path.baseSteps_eq, split, List.filterMap_append, List.filterMap_cons_some last_step]
    rfl
  have some : (Extraction.relative resource).bytes ≠ [] := by
    intro none
    exact Extraction.not_mem_of_isPlain plain (by rw [none]; exact .head _)
  refine ⟨pos, dhead, dtail ++ init.filterMap Path.step?, last, start_join begins isRelative clean, fits,
    ?_, ?_, leads, ?_⟩
  · rw [Path.baseSteps_join dest isRelative, parts, ends]
    simp
  · rw [Path.endsInSlash_join dest isRelative some, Path.endsInSlash_eq, split, List.getLast?_concat]
    have filled : last ≠ [] := by
      rintro rfl
      cases last_step
    simp [filled]
  · have steps := Down.of_isPlain plain short
    rw [← Path.baseSteps_eq, ends] at steps
    rw [List.append_assoc]
    exact down.append steps

end Lacks

/-! ### One file -/

/-- A file was made at the end of a way down, with what was missing above it, and nothing else. -/
structure Filed (fs fs₂ : FileSystem) (base : Place) (names : List Bytes) (content : Content) :
    Prop where
  grows : fs.Grows fs₂
  known : fs.contents.size < fs₂.contents.size
  file : fs₂.kind? (base ++ names) = some (.file fs.contents.size)
  content_eq : fs₂.content fs.contents.size = content
  way : fs₂.Open base names
  kept : ∀ place, (∀ front, front <+: names → place ≠ base ++ front) → fs₂.kind? place = fs.kind? place

theorem Opened.filed (opened : fs.Opened fs₁ base names)
    (free : fs.kind? (base ++ (names ++ [name])) = none) (content : Content) :
    fs.Filed (fs₁.addFile (base ++ (names ++ [name])) content) base (names ++ [name]) content := by
  have above := opened.made names (List.prefix_refl _)
  have free₁ : fs₁.kind? (base ++ names ++ [name]) = none := by
    rw [List.append_assoc, opened.kept _ fun front => append_concat_ne, free]
  have size : fs₁.contents.size = fs.contents.size := by rw [opened.contents]
  have now := kind?_addFile content above free₁
  rw [List.append_assoc, size] at now
  refine ⟨opened.grows.trans ?_, ?_, ?_, ?_, ?_, ?_⟩
  · have grows := grows_addFile content above free₁
    rwa [List.append_assoc] at grows
  · simp [addFile, size]
  · rw [now, if_pos rfl]
  · rw [← size, content_addFile]
  · intro front below less
    have within := (List.prefix_concat_iff.1 below).resolve_left less
    rw [now, if_neg (append_concat_ne within).symm, opened.made front within]
  · intro place apart
    rw [now, if_neg (apart _ (List.prefix_refl _)), opened.kept place fun front below =>
      apart front (below.trans (List.prefix_append _ _))]

/-- With all above it made, a file can be written at the end of a free way. -/
theorem Opened.write_filed (opened : fs.Opened fs₁ base names) (d : fs.Descends p base (names ++ [name]))
    (free : fs.kind? (base ++ (names ++ [name])) = none) (content : Content) :
    ∃ fs₂, fs₁.write p content = .ok fs₂ ∧ fs.Filed fs₂ base (names ++ [name]) content := by
  have way : fs₁.Open base (names ++ [name]) := fun front below less =>
    opened.made front ((List.prefix_concat_iff.1 below).resolve_left less)
  have free₁ : fs₁.kind? (base ++ (names ++ [name])) = none := by
    rw [opened.kept _ fun front => append_concat_ne, free]
  exact ⟨_, write_vacant (d.grows opened.grows.tree opened.grows.workingDirectory) way free₁ content,
    opened.filed free content⟩

/-- What is on the way to a place that is not below the file is on the way to the file, or is as it was. -/
theorem Filed.still {way other front : List Bytes} (filed : fs.Filed fs₂ base way content)
    (outside : ¬way <+: other) (below : front <+: other) :
    front <+: way ∧ front ≠ way ∨ fs₂.kind? (base ++ front) = fs.kind? (base ++ front) := by
  by_cases within : front <+: way
  · exact .inl ⟨within, fun same => outside (same ▸ below)⟩
  · refine .inr (filed.kept _ fun front' below' same => within ?_)
    rwa [List.append_cancel_left same]

end FileSystem

namespace Command

open FileSystem FileAccess

variable {fs fs₁ fs₂ : FileSystem} {a : Archive} {handle : FileId} {base place : Place}
  {names : Location → List Bytes} {r : Location × Path} {rest resources : List (Location × Path)}

/-! ### One resource -/

/-- A resource is written once the directory above it is there and its content was read. -/
theorem writeResources_cons {l : Location} {p : Path} {content : Content}
    (rest : List (Location × Path))
    (made : (makeParent p : StateM FileSystem (Except SystemError Unit)) fs = (.ok (), fs₁))
    (held : a.read (fs₁.content handle) l = .ok content) (written : fs₁.write p content = .ok fs₂) :
    (writeResources handle a ((l, p) :: rest) : StateM FileSystem (Except Failure Unit)) fs
      = (writeResources handle a rest : StateM FileSystem (Except Failure Unit)) fs₂ := by
  have now : (holdings (m := StateM FileSystem) handle) fs₁ = (fs₁.content handle, fs₁) := rfl
  have done : (writeFile p content : StateM FileSystem (Except SystemError Unit)) fs₁ = (.ok (), fs₂) :=
    attempt_ok written
  rw [writeResources, bind_apply made]
  simp only
  rw [bind_apply now, held]
  simp only
  rw [bind_apply done]

/-- The directory above a path is there, or the path goes down to it from one that is. -/
def HasAbove (fs : FileSystem) (p : Path) (names : List Bytes) : Prop :=
  1 < names.length ∨ ∃ q, p.parent? = some q ∧ fs.isDirectory q

theorem HasAbove.grows {p : Path} {names : List Bytes} (above : HasAbove fs p names)
    (grows : fs.Grows fs₁) : HasAbove fs₁ p names :=
  above.imp_right fun ⟨q, parent, there⟩ => ⟨q, parent, isDirectory_grows grows there⟩

/-- Above the end of a free way all that is missing is made, and then a file can be written there. -/
theorem makeParent_filed {p : Path} {names : List Bytes} (d : fs.Descends p base names)
    (above : HasAbove fs p names) (clear : fs.Clear base names) (free : fs.kind? (base ++ names) = none)
    (content : Content) : ∃ fs₁ fs₂,
      (makeParent p : StateM FileSystem (Except SystemError Unit)) fs = (.ok (), fs₁)
        ∧ fs₁.contents = fs.contents ∧ fs₁.write p content = .ok fs₂
        ∧ fs.Filed fs₂ base names content := by
  obtain ⟨front, name, rfl⟩ : ∃ front name, names = front ++ [name] :=
    ⟨_, _, (List.dropLast_append_getLast d.ne_nil).symm⟩
  suffices made : ∃ fs₁, (makeParent p : StateM FileSystem (Except SystemError Unit)) fs = (.ok (), fs₁)
      ∧ fs.Opened fs₁ base front by
    obtain ⟨fs₁, made, opened⟩ := made
    obtain ⟨fs₂, written, filed⟩ := opened.write_filed d free content
    exact ⟨fs₁, fs₂, made, opened.contents, written, filed⟩
  by_cases none : front = []
  · subst none
    obtain ⟨q, parent, there⟩ := above.resolve_left (by simp)
    refine ⟨fs, ?_, .refl fs, rfl, fun front below => ?_, fun _ _ => rfl⟩
    · rw [makeParent, parent]
      exact createDirectories_of_isDirectory there
    · rw [List.prefix_nil.1 below, List.append_nil, d.kind?_base]
  · obtain ⟨q, parent, dq⟩ := d.parent none
    obtain ⟨fs₁, made, opened⟩ := createDirectories_opened dq fun front below =>
      clear front (below.trans (List.prefix_append _ _))
    refine ⟨fs₁, ?_, opened⟩
    rw [makeParent, parent]
    exact made

/-! ### All resources -/

/-- Every resource is in a file of its own at its place, the directories above are there, and nothing
    else has changed. -/
structure Extracted (fs fs₂ : FileSystem) (base : Place) (names : Location → List Bytes)
    (content : Location → Content) (locations : List Location) : Prop where
  grows : fs.Grows fs₂
  files : ∀ l ∈ locations, ∃ id, fs₂.kind? (base ++ names l) = some (.file id)
    ∧ id < fs₂.contents.size ∧ fs₂.content id = content l
  ways : ∀ l ∈ locations, fs₂.Open base (names l)
  kept : ∀ place, (∀ l ∈ locations, ∀ front, front <+: names l → place ≠ base ++ front) →
    fs₂.kind? place = fs.kind? place

/-- Neither place is below the other. -/
def Apart (x y : List Bytes) : Prop := ¬x <+: y ∧ ¬y <+: x

/-- Every resource can be read, and a file for it can be made at a place apart from the others. -/
structure Ready (fs : FileSystem) (a : Archive) (handle : FileId) (base : Place)
    (names : Location → List Bytes) (content : Location → Content) (resources : List (Location × Path)) :
    Prop where
  known : handle < fs.contents.size
  descends : ∀ r ∈ resources, fs.Descends r.2 base (names r.1)
  above : ∀ r ∈ resources, HasAbove fs r.2 (names r.1)
  clear : ∀ r ∈ resources, fs.Clear base (names r.1)
  free : ∀ r ∈ resources, fs.kind? (base ++ names r.1) = none
  held : ∀ r ∈ resources, a.read (fs.content handle) r.1 = .ok (content r.1)
  apart : resources.Pairwise fun r s => Apart (names r.1) (names s.1)

variable {content : Location → Content}

/-- When the file of the first resource was made, the others are still ready. -/
theorem Ready.others (ready : Ready fs a handle base names content (r :: rest))
    (filed : fs.Filed fs₂ base (names r.1) (content r.1)) :
    Ready fs₂ a handle base names content rest := by
  obtain ⟨others, apart⟩ := List.pairwise_cons.1 ready.apart
  refine ⟨Nat.lt_trans ready.known filed.known, fun s hs => ?_,
    fun s hs => (ready.above s (.tail _ hs)).grows filed.grows, fun s hs front below => ?_,
    fun s hs => ?_, fun s hs => ?_, apart⟩
  · exact (ready.descends s (.tail _ hs)).grows filed.grows.tree filed.grows.workingDirectory
  · rcases filed.still (others s hs).1 below with ⟨within, less⟩ | same
    · exact .inr (filed.way front within less)
    · rw [same]
      exact ready.clear s (.tail _ hs) front below
  · rcases filed.still (others s hs).1 (List.prefix_refl _) with ⟨within, -⟩ | same
    · exact absurd within (others s hs).2
    · rw [same, ready.free s (.tail _ hs)]
  · rw [filed.grows.contents handle ready.known]
    exact ready.held s (.tail _ hs)

/-- The file that was made first stays when the others are extracted. -/
theorem Extracted.cons {fs₃ : FileSystem} {l : Location} {ls : List Location}
    (filed : fs.Filed fs₂ base (names l) (content l))
    (extracted : Extracted fs₂ fs₃ base names content ls)
    (others : ∀ m ∈ ls, Apart (names l) (names m)) :
    Extracted fs fs₃ base names content (l :: ls) := by
  refine ⟨filed.grows.trans extracted.grows, ?_, ?_, ?_⟩
  · intro m hm
    rcases List.mem_cons.1 hm with rfl | later
    · refine ⟨_, ?_, Nat.lt_of_lt_of_le filed.known extracted.grows.size_le, ?_⟩
      · rw [extracted.kept, filed.file]
        intro m' hm' front below same
        exact (others m' hm').1 (List.append_cancel_left same ▸ below)
      · rw [extracted.grows.contents _ filed.known, filed.content_eq]
    · exact extracted.files m later
  · intro m hm front below less
    rcases List.mem_cons.1 hm with rfl | later
    · by_cases shared : ∃ m' ∈ ls, front <+: names m'
      · obtain ⟨m', hm', below'⟩ := shared
        exact extracted.ways m' hm' front below' fun same => (others m' hm').2 (same ▸ below)
      · rw [extracted.kept, filed.way front below less]
        intro m' hm' front' below' same
        exact shared ⟨m', hm', List.append_cancel_left same ▸ below'⟩
    · exact extracted.ways m later front below less
  · intro place outside
    rw [extracted.kept place fun m hm => outside m (.tail _ hm), filed.kept place (outside l (.head _))]

theorem writeResources_extracted (ready : Ready fs a handle base names content resources) : ∃ fs₂,
    (writeResources handle a resources : StateM FileSystem (Except Failure Unit)) fs = (.ok (), fs₂)
      ∧ Extracted fs fs₂ base names content (resources.map Prod.fst) := by
  induction resources generalizing fs with
  | nil => exact ⟨fs, rfl, .refl fs, by simp, by simp, fun _ _ => rfl⟩
  | cons r rest ih =>
    obtain ⟨l, p⟩ := r
    have first : (l, p) ∈ (l, p) :: rest := .head _
    obtain ⟨fs₁, fs₂, made, contents, written, filed⟩ := makeParent_filed (ready.descends _ first)
      (ready.above _ first) (ready.clear _ first) (ready.free _ first) (content l)
    have content₁ : fs₁.content handle = fs.content handle := by
      rw [FileSystem.content, contents]
      rfl
    have step := writeResources_cons rest made (content₁ ▸ ready.held _ first) written
    obtain ⟨fs₃, onward, extracted⟩ := ih (ready.others filed)
    refine ⟨fs₃, step.trans onward, extracted.cons filed ?_⟩
    intro m hm
    obtain ⟨s, hs, rfl⟩ := List.mem_map.1 hm
    exact (List.pairwise_cons.1 ready.apart).1 s hs

end Command

end ResourceArchive
