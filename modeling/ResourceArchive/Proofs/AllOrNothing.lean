import Mathlib.Data.List.TakeWhile
import ResourceArchive.Proofs.Confinement
import ResourceArchive.Proofs.Extraction
import ResourceArchive.Proofs.FileBacked
import ResourceArchive.Proofs.Files
import ResourceArchive.Proofs.Verification

/-! Extracting all resources, or none. The names are judged before anything is written, and where all of
    them can be extracted into a directory that is not there, every resource is written to a file of its
    own. A name that ends in a dot escapes the judgement: it has a path, but no file can be written
    there. -/

namespace ResourceArchive

/-! ### What a container lists -/

/-- A string of a pool ends before the first zero byte. -/
theorem Pool.no_zero_of_textAt {pool : Pool} {offset : UInt64} {s : String}
    (h : pool.textAt offset = .ok s) : 0 ∉ utf8 s := by
  rw [textAt, bind_eq_ok] at h
  obtain ⟨bs, found, spelled⟩ := h
  have clean : 0 ∉ bs := by
    rw [bytesAt_eq] at found
    split at found
    · cases found
    · split at found
      · cases found
        intro zero
        simpa using List.mem_takeWhile_imp zero
      · cases found
  rcases text : text? bs with _ | s'
  · rw [text] at spelled
    cases spelled
  · rw [text] at spelled
    cases spelled
    rwa [utf8_of_text? text]

theorem NameParts.no_zero_framed {before part after : String} (hb : 0 ∉ utf8 before)
    (hp : 0 ∉ utf8 part) (ha : 0 ∉ utf8 after) : 0 ∉ utf8 (framed before part after) := by
  rw [framed]
  split
  · simp [utf8_empty]
  · simp [utf8_append, hb, hp, ha]

/-- No name that a container lists has a zero byte. -/
theorem Location.no_zero_of_resolve {record : Record} {pool : Pool} {l : Location}
    (h : resolve record pool = .ok l) : 0 ∉ utf8 l.fullName := by
  rw [resolve, bind_eq_ok] at h
  obtain ⟨module, hm, h⟩ := h
  rw [bind_eq_ok] at h
  obtain ⟨parent, hp, h⟩ := h
  rw [bind_eq_ok] at h
  obtain ⟨base, hb, h⟩ := h
  rw [bind_eq_ok] at h
  obtain ⟨extension, he, h⟩ := h
  cases h
  have slash : 0 ∉ utf8 "/" := by decide
  have dot : 0 ∉ utf8 "." := by decide
  have none : 0 ∉ utf8 "" := by decide
  have framedModule := NameParts.no_zero_framed slash (Pool.no_zero_of_textAt hm) slash
  have framedParent := NameParts.no_zero_framed none (Pool.no_zero_of_textAt hp) slash
  have framedExtension := NameParts.no_zero_framed dot (Pool.no_zero_of_textAt he) none
  rw [fullName, NameParts.fullName]
  simp [utf8_append, framedModule, framedParent, framedExtension, Pool.no_zero_of_textAt hb]

namespace Archive

variable {a : Archive} {l : Location} {ls : List Location}

theorem no_zero_of_next? {c next : Cursor} (h : a.next? c = some (.ok l, next)) :
    0 ∉ utf8 l.fullName := by
  rw [next?] at h
  split at h
  · cases h
  · split at h
    · cases h
    · next record position _ =>
      rcases resolved : Location.resolve record a.strings with e | m
      · rw [resolved] at h
        cases h
      · rw [resolved] at h
        cases h
        exact Location.no_zero_of_resolve resolved

theorem no_zero_of_readingsFrom {n : Nat} {c : Cursor}
    (listed : .ok l ∈ (a.readingsFrom n c).map Prod.snd) : 0 ∉ utf8 l.fullName := by
  induction n generalizing c with
  | zero => cases listed
  | succ n ih =>
    rw [readingsFrom] at listed
    split at listed
    · cases listed
    · next item next read =>
      rcases List.mem_cons.1 listed with first | later
      · obtain rfl : .ok l = item := first
        exact no_zero_of_next? read
      · exact ih later

theorem length_of_ofFile {o : ByteOrder} {file : Content} (opened : ofFile o file = .ok a) :
    a.length = file.length := by
  rcases ofFile_cases o file with ⟨e, refused, -⟩ | ⟨a', b, opened', inMemory, -, length⟩
  · rw [refused] at opened
    cases opened
  · rw [opened'] at opened
    cases opened
    rw [length, (ofBytes_eq_ok.1 inMemory).length_eq, Content.toBytes_length]

/-- What lies in the container can be read from the file that it was opened from. -/
theorem read_of_holds {o : ByteOrder} {file : Content} (opened : ofFile o file = .ok a)
    (held : a.holds l.contentOffset l.storedSize) : ∃ content, a.read file l = .ok content := by
  have bytes := toBytes_readContent a file l.contentOffset l.storedSize
  have inside := (holds_iff.1 held).1
  rw [length_of_ofFile opened] at inside
  rw [if_pos held, if_pos (.inr inside)] at bytes
  rcases done : a.readContent file l.contentOffset l.storedSize with e | content
  · rw [done] at bytes
    cases bytes
  · exact ⟨content, done⟩

/-- What a container that passes lists can be found and read. -/
theorem readable_of_verify {o : ByteOrder} {file : Content} {n : Nat} (opened : ofFile o file = .ok a)
    (verified : a.verify = .ok n) : ∃ ls : List Location, a.locations = ls.map .ok
      ∧ ∀ l ∈ ls, a.find? l.fullName = .ok (some l)
        ∧ a.read file l = .ok ((a.read file l).toOption.getD {}) := by
  obtain ⟨ls, listed, passed⟩ := listed_of_verify verified
  refine ⟨ls, listed, fun l hl => ?_⟩
  obtain ⟨found, held⟩ := of_check (passed l hl)
  obtain ⟨content, read⟩ := read_of_holds opened held
  refine ⟨found, ?_⟩
  rw [read]
  rfl

end Archive

namespace Command

open FileSystem FileAccess

variable {fs : FileSystem} {a : Archive} {order : ByteOrder} {image dest : String} {id : FileId}
  {ls : List Location} {base : Place} {names : List Bytes} {paths : List Path}

/-! ### The whole command -/

theorem extraction_eq (listed : a.locations = ls.map .ok) (dest : Path) : extraction a dest =
    match Extraction.paths dest (ls.map Location.fullName) with
    | .error refusal => .error ⟨refusal.message, []⟩
    | .ok paths => .ok (ls.zip paths) := by
  have gathered : a.fold (fun locations l => .ok (l :: locations)) [] = .ok ls.reverse := by
    rw [Archive.fold_eq, listed, foldlM_map_ok _ (fun locations l => l :: locations) ls
      fun _ _ _ => rfl, List.foldl_flip_cons_eq_append, List.append_nil, List.map_id']
  rw [extraction, gathered]
  rcases accepted : Extraction.paths dest (ls.map Location.fullName) <;>
    simp only [List.reverse_reverse, accepted]

/-- A command goes on with the container that was opened. -/
theorem withArchive_eq (regular : fs.fileAt (Path.ofString image) = .ok id)
    (opened : Archive.ofFile order (fs.content id) = .ok a)
    (next : FileId → Archive → StateM FileSystem Outcome) :
    (withArchive order image next : StateM FileSystem Outcome) fs = next id a fs := by
  have file : (openFile (Path.ofString image) : StateM FileSystem _) fs
      = (.ok (id, fs.content id), fs) := by
    show (_, fs) = _
    rw [regular]
  rw [withArchive, bind_apply file]
  simp only [opened]
  rfl

theorem extractAll_refused {f : Failure} (regular : fs.fileAt (Path.ofString image) = .ok id)
    (opened : Archive.ofFile order (fs.content id) = .ok a)
    (refused : extraction a (Path.ofString dest) = .error f) :
    (extractAll order image dest : StateM FileSystem Outcome) fs
      = (({} : Outcome).fail f, fs) := by
  rw [extractAll, withArchive_eq regular opened]
  simp only [refused]
  rfl

/-- Each of the paths that were accepted is that of its name. -/
theorem path_of_mem_zip {α : Type} {name : α → String} {items : List α} {dest : Path}
    (accepted : (items.map name).mapM (Extraction.path dest) = .ok paths) :
    paths.length = items.length
      ∧ ∀ r ∈ items.zip paths, Extraction.path dest (name r.1) = .ok r.2 := by
  rw [mapM_eq_ok, List.map_map] at accepted
  have length : paths.length = items.length := by
    simpa using (congrArg List.length accepted).symm
  refine ⟨length, fun r hr => ?_⟩
  obtain ⟨i, hi, rfl⟩ := List.mem_iff_getElem.1 hr
  have at_i : ((items.map (Extraction.path dest ∘ name))[i]?) = (paths.map .ok)[i]? := by
    rw [accepted]
  rw [List.length_zip, length, Nat.min_self] at hi
  simpa [hi, length] using at_i

/-- The place of a resource below a destination. -/
def placeBelow (names : List Bytes) (l : Location) : List Bytes := names ++ Extraction.below l.fullName

/-- A resource whose path can be looked up, and does not end by staying. -/
structure Writable (dest : Path) (l : Location) : Prop where
  undotted : (Path.segments (Extraction.relative l.fullName).bytes).getLast? ≠ some [Path.dot]
  fits : (dest.join (Extraction.relative l.fullName)).bytes.length ≤ pathLimit
  short : ∀ n ∈ Extraction.below l.fullName, n.length ≤ nameLimit

section Accepted

variable (accepted : Extraction.paths (Path.ofString dest) (ls.map Location.fullName) = .ok paths)
include accepted

/-- Resources whose names are accepted together have places apart. -/
theorem apart_of_accepted :
    ls.Pairwise fun l m => Apart (Extraction.below l.fullName) (Extraction.below m.fullName) := by
  obtain ⟨each, apart⟩ := Extraction.paths_eq_ok.1 accepted
  have ways := (Extraction.pairwise_components_iff (mapM_eq_ok.1 each)).1 apart
  rwa [List.map_map, List.pairwise_map] at ways

/-- Resources whose names are accepted together, each with its path. -/
theorem zip_of_accepted : (ls.zip paths).map Prod.fst = ls ∧ (ls.zip paths).length = ls.length
    ∧ ∀ r ∈ ls.zip paths, r.1 ∈ ls ∧ Extraction.path (Path.ofString dest) r.1.fullName = .ok r.2 := by
  obtain ⟨length, path⟩ := path_of_mem_zip (Extraction.paths_eq_ok.1 accepted).1
  refine ⟨List.map_fst_zip (Nat.le_of_eq length.symm), by simp [length], fun r hr => ⟨?_, path r hr⟩⟩
  exact (List.of_mem_zip hr).1

/-- Once all resources were written, the command is done. -/
theorem extractAll_of_written {fs₂ : FileSystem} (regular : fs.fileAt (Path.ofString image) = .ok id)
    (opened : Archive.ofFile order (fs.content id) = .ok a) (listed : a.locations = ls.map .ok)
    (written : (writeResources id a (ls.zip paths) : StateM FileSystem (Except Failure Unit)) fs
      = (.ok (), fs₂)) :
    (extractAll order image dest : StateM FileSystem Outcome) fs
      = (({} : Outcome).note
          ("extracted " ++ toString ls.length ++ " resources to " ++ dest), fs₂) := by
  obtain ⟨-, length, -⟩ := zip_of_accepted accepted
  rw [extractAll, withArchive_eq regular opened]
  simp only [extraction_eq listed, accepted]
  rw [bind_apply written]
  simp only [length]
  rfl

/-- Where all names are accepted, every resource is extracted. -/
theorem extractAll_extracted {content : Location → Content}
    (regular : fs.fileAt (Path.ofString image) = .ok id)
    (opened : Archive.ofFile order (fs.content id) = .ok a) (listed : a.locations = ls.map .ok)
    (readable : ∀ l ∈ ls, a.read (fs.content id) l = .ok (content l))
    (lacks : fs.Lacks (Path.ofString dest) base names)
    (writable : ∀ l ∈ ls, Writable (Path.ofString dest) l) :
    ∃ fs₂, (extractAll order image dest : StateM FileSystem Outcome) fs
        = (({} : Outcome).note
            ("extracted " ++ toString ls.length ++ " resources to " ++ dest), fs₂)
      ∧ Extracted fs fs₂ base (placeBelow names) content ls := by
  obtain ⟨firsts, -, among⟩ := zip_of_accepted accepted
  have ready : Ready fs a id base (placeBelow names) content (ls.zip paths) := by
    refine ⟨size_of_fileAt regular, fun r hr => ?_, fun r hr => .inl ?_, fun r _ => lacks.clear _,
      fun r _ => lacks.kind?_below (List.prefix_refl _) (by simp [placeBelow, lacks.ne_nil]),
      fun r hr => readable _ (among r hr).1, ?_⟩
    · obtain ⟨member, path⟩ := among r hr
      obtain ⟨-, -, same⟩ := Extraction.path_eq_ok.1 path
      obtain ⟨undotted, fits, short⟩ := writable _ member
      have listed' : .ok r.1 ∈ a.locations := by
        rw [listed]
        exact List.mem_map_of_mem member
      have clean : 0 ∉ (Extraction.relative r.1.fullName).bytes := fun zero =>
        Archive.no_zero_of_readingsFrom listed' ((List.dropWhile_sublist _).mem zero)
      exact lacks.descends path undotted clean (same ▸ fits) short
    · have some := List.length_pos_of_ne_nil lacks.ne_nil
      have found := Extraction.exists_path_iff.1 ⟨_, (among r hr).2⟩
      have some' := List.length_pos_of_ne_nil (Extraction.below_ne_nil found.2)
      rw [placeBelow, List.length_append]
      omega
    · have apart := apart_of_accepted accepted
      rw [← firsts, List.pairwise_map] at apart
      refine apart.imp fun h => ?_
      rwa [Apart, placeBelow, placeBelow, List.prefix_append_right_inj, List.prefix_append_right_inj]
  obtain ⟨fs₂, written, extracted⟩ := writeResources_extracted ready
  rw [firsts] at extracted
  exact ⟨fs₂, extractAll_of_written accepted regular opened listed written, extracted⟩

end Accepted

/-- What is found where resources were extracted is one of them, on the way to one, or was there before. -/
theorem Extracted.cases {fs₂ : FileSystem} {place : Location → List Bytes} {content : Location → Content}
    {kind : Kind} {rest : List Bytes} (extracted : Extracted fs fs₂ base place content ls)
    (held : fs₂.kind? (base ++ rest) = some kind) :
    (∃ l ∈ ls, rest = place l ∨ rest <+: place l ∧ kind = .directory)
      ∨ fs.kind? (base ++ rest) = some kind := by
  by_cases outside : ∀ l ∈ ls, ¬rest <+: place l
  · refine .inr (extracted.kept _ (fun l hl front below same => outside l hl ?_) ▸ held)
    rwa [List.append_cancel_left same]
  · simp only [not_forall, not_not] at outside
    obtain ⟨l, hl, below⟩ := outside
    refine .inl ⟨l, hl, ?_⟩
    by_cases whole : rest = place l
    · exact .inl whole
    · have directory := extracted.ways l hl rest below whole
      exact .inr ⟨below, Option.some.inj (held.symm.trans directory)⟩

/-- What is below a destination after extracting. -/
theorem Extracted.below_cases {fs₂ : FileSystem} {content : Location → Content} {kind : Kind}
    {rest : List Bytes} (extracted : Extracted fs fs₂ base (placeBelow names) content ls)
    (lacks : fs.Lacks (Path.ofString dest) base names)
    (held : fs₂.kind? (base ++ (names ++ rest)) = some kind) :
    ∃ l ∈ ls, rest = Extraction.below l.fullName
      ∨ rest <+: Extraction.below l.fullName ∧ kind = .directory := by
  rcases extracted.cases held with ⟨l, hl, place⟩ | before
  · refine ⟨l, hl, place.imp List.append_cancel_left ?_⟩
    exact And.imp_left (List.prefix_append_right_inj names).1
  · rw [lacks.kind?_below (List.prefix_refl _) (by simp [lacks.ne_nil])] at before
    cases before

/-- A container with one resource, of the name `/m/.`. -/
def dotContainer : Bytes :=
  [0xda, 0xda, 0xfe, 0xca, 0x01, 0x00, 0x00, 0x00, 0x00, 0x00, 0x00, 0x00, 0x01, 0x00, 0x00, 0x00,
    0x01, 0x00, 0x00, 0x00, 0x07, 0x00, 0x00, 0x00, 0x05, 0x00, 0x00, 0x00, 0x00, 0x00, 0x00, 0x00,
    0xff, 0xff, 0xff, 0xff, 0x00, 0x00, 0x00, 0x00, 0x01, 0x01, 0x03, 0x03, 0x07, 0x01, 0x00, 0x00,
    0x6d, 0x00, 0x2e, 0x00, 0x41]

/-- The container in a file `i`. -/
def dotFile : FileSystem where
  root := .directory [(utf8 "i", .file 0)]
  contents := #[.ofBytes dotContainer]

/-- The name `out` can be that of a file. -/
theorem isFileName_out : IsFileName (utf8 "out") := by
  constructor <;> decide

/-- What comes of extracting the container. -/
def dotRun : Outcome × FileSystem := (extractAll .little "i" "out" : StateM FileSystem Outcome) dotFile

/-- A dot at the end of a name makes an extraction fail when the destination was made already, though the
    container passes every check. -/
theorem dotRun_fails_after_creating :
    dotFile.fileAt (Path.ofString "i") = .ok 0
    ∧ (Archive.ofFile .little (dotFile.content 0)).toOption.any (·.verify.toOption = some 1)
    ∧ dotFile.Lacks (Path.ofString "out") [] [utf8 "out"]
    ∧ dotRun.1.status = 1 ∧ dotRun.2.kind? [utf8 "out"] = some .directory :=
  ⟨rfl, by decide +kernel, .of_name rfl rfl isFileName_out (by decide) rfl, by decide +kernel,
    by decide +kernel⟩

/-- A container that passes every check, and none of whose names ends in a dot, is extracted into a
    directory that is not there either as a whole or, if its names are refused, not at all, where no name of
    a file and no path is longer than can be looked up. -/
theorem extractAll_all_or_nothing {count : Nat} (regular : fs.fileAt (Path.ofString image) = .ok id)
    (opened : Archive.ofFile order (fs.content id) = .ok a) (verified : a.verify = .ok count)
    (lacks : fs.Lacks (Path.ofString dest) base names)
    (writable : ∀ l, .ok l ∈ a.locations → Writable (Path.ofString dest) l) :
    ∃ ls : List Location, a.locations = ls.map .ok
      ∧ ((∃ refusal, Extraction.paths (Path.ofString dest) (ls.map Location.fullName) = .error refusal
          ∧ (extractAll order image dest : StateM FileSystem Outcome) fs
            = (({} : Outcome).fail ⟨refusal.message, []⟩, fs))
        ∨ ∃ outcome fs₂, (extractAll order image dest : StateM FileSystem Outcome) fs = (outcome, fs₂)
          ∧ outcome.status = 0 ∧ fs.Grows fs₂
          ∧ (ls.map fun l => Extraction.below l.fullName).Nodup
          ∧ (∀ l ∈ ls, ∃ file content,
              fs₂.kind? (base ++ (names ++ Extraction.below l.fullName)) = some (.file file)
                ∧ a.read (fs.content id) l = .ok content ∧ fs₂.content file = content)
          ∧ ∀ rest kind, fs₂.kind? (base ++ (names ++ rest)) = some kind →
              ∃ l ∈ ls, rest = Extraction.below l.fullName
                ∨ rest <+: Extraction.below l.fullName ∧ kind = .directory) := by
  obtain ⟨ls, listed, readable⟩ := Archive.readable_of_verify opened verified
  refine ⟨ls, listed, ?_⟩
  have member {l : Location} (hl : l ∈ ls) : .ok l ∈ a.locations := by
    rw [listed]
    exact List.mem_map_of_mem hl
  rcases accepted : Extraction.paths (Path.ofString dest) (ls.map Location.fullName) with refusal | paths
  · exact .inl ⟨refusal, rfl, extractAll_refused regular opened (by rw [extraction_eq listed, accepted])⟩
  · obtain ⟨fs₂, done, extracted⟩ := extractAll_extracted accepted regular opened listed
      (fun l hl => (readable l hl).2) lacks (fun l hl => writable l (member hl))
    refine .inr ⟨_, fs₂, done, rfl, extracted.grows, ?_, ?_, ?_⟩
    · rw [List.nodup_iff_pairwise_ne, List.pairwise_map]
      refine (apart_of_accepted accepted).imp fun apart same => apart.1 ⟨[], ?_⟩
      rw [List.append_nil, same]
    · intro l hl
      obtain ⟨file, there, -, holds⟩ := extracted.files l hl
      exact ⟨file, _, there, (readable l hl).2, holds⟩
    · intro rest kind held
      exact extracted.below_cases lacks held

/-- The resource `a` of the container in the file `a` is extracted to `out/a`. -/
theorem extractAll_all_or_nothing_oneFile : ∃ outcome fs₂,
    (extractAll .little "a" "out" : StateM FileSystem Outcome) oneFile = (outcome, fs₂)
      ∧ outcome.status = 0
      ∧ ∃ file, fs₂.kind? [utf8 "out", utf8 "a"] = some (.file file) := by
  have regular : oneFile.fileAt (Path.ofString "a") = .ok 0 := rfl
  have facts : (Archive.ofFile .little (oneFile.content 0)).map (fun a => (a.verify, a.locations))
      = .ok (.ok 1, [.ok ⟨⟨"", "", "a", ""⟩, 0, 0, 2⟩]) := by decide +kernel
  rcases opened : Archive.ofFile .little (oneFile.content 0) with e | a
  · rw [opened] at facts
    cases facts
  rw [opened, Except.map, Except.ok.injEq, Prod.mk.injEq] at facts
  obtain ⟨verified, listed⟩ := facts
  have lacks : oneFile.Lacks (Path.ofString "out") [] [utf8 "out"] :=
    .of_name rfl rfl isFileName_out (by decide) rfl
  have writable : ∀ l, .ok l ∈ a.locations → Writable (Path.ofString "out") l := by
    intro l hl
    rw [listed, List.mem_singleton] at hl
    cases hl
    constructor <;> decide +kernel
  obtain ⟨ls, listed', result⟩ := extractAll_all_or_nothing regular opened verified lacks writable
  obtain rfl : ls = [⟨⟨"", "", "a", ""⟩, 0, 0, 2⟩] := by
    rw [listed] at listed'
    rcases ls with _ | ⟨l, _ | ⟨m, ls⟩⟩ <;> cases listed'
    rfl
  have accepted : Extraction.paths (Path.ofString "out") ["a"] = .ok [⟨utf8 "out/a"⟩] := by
    decide +kernel
  rcases result with ⟨refusal, refused, -⟩ | ⟨outcome, fs₂, done, ended, -, -, files, -⟩
  · cases accepted.symm.trans refused
  · obtain ⟨file, content, there, -⟩ := files _ (.head _)
    exact ⟨outcome, fs₂, done, ended, file, there⟩

end Command

end ResourceArchive
