import ResourceArchive.FileSystem.Change
import ResourceArchive.Proofs.Regions
import ResourceArchive.Registry

/-! Containers in files. Of a file only the header and then the index are read when it is opened, and
    contents are read from it later; the answers are nevertheless those of a container in memory with the
    same bytes. A file that has changed since shows in its contents alone: the bounds of a read are those
    of the file as it was opened, and what is read is what the file holds now. -/

namespace ResourceArchive

namespace Archive

variable {o : ByteOrder} {file : Content}

theorem parse_range (file : Content) (o : ByteOrder) :
    Header.parse (file.range 0 Header.size) o = Header.parse file.toBytes o := by
  rw [Content.range_eq, List.drop_zero, Header.parse_take _ (Nat.le_refl _)]

/-- A container is opened from a file where it would be opened from its bytes, and is refused for the
    same. -/
theorem ofFile_cases (o : ByteOrder) (file : Content) :
    (∃ e, ofFile o file = .error e ∧ ofBytes o file.toBytes = .error e)
    ∨ ∃ a b, ofFile o file = .ok a ∧ ofBytes o file.toBytes = .ok b ∧ a.SameIndex b
        ∧ a.length = b.length := by
  rcases parsed : Header.parse file.toBytes o with e | h
  · exact .inl ⟨e, by rw [ofFile, parse_range, parsed]; rfl, ofBytes_of_parse_error parsed⟩
  · have read := (parse_range file o).trans parsed
    rcases Nat.lt_or_ge file.length h.indexSize with short | indexed
    · refine .inl ⟨.corrupt .shorterThanIndex, ?_, ?_⟩
      · rw [ofFile, read, ok_bind, if_pos short]
        rfl
      · rw [ofBytes, parsed, ok_bind, if_pos (Content.toBytes_length file ▸ short)]
        rfl
    · obtain ⟨a, opened, length, marked⟩ := ofFile_marked read indexed
      obtain ⟨b, opened', length', marked'⟩ :=
        ofBytes_marked parsed (Content.toBytes_length file ▸ indexed)
      refine .inr ⟨a, b, opened, opened', marked.sameIndex marked' ?_, ?_⟩
      · rw [List.take_take, Nat.min_self]
      · rw [length, length', Content.toBytes_length]

/-! ### Reading -/

/-- What is read depends on the bytes that the container holds now, in whatever runs. -/
theorem toBytes_readContent_congr {a b : Archive} (same : a.SameIndex b) (length : a.length = b.length)
    {file file' : Content} (alike : file.toBytes = file'.toBytes) (offset size : UInt64) :
    Content.toBytes <$> a.readContent file offset size
      = Content.toBytes <$> b.readContent file' offset size := by
  simp only [toBytes_readContent, same.holds_eq length, same.indexSize_eq, length, alike,
    ← Content.toBytes_length]

theorem toBytes_readByName_congr {a b : Archive} (same : a.SameIndex b) (length : a.length = b.length)
    {file file' : Content} (alike : file.toBytes = file'.toBytes) (name : String) :
    Content.toBytes <$> a.readByName file name = Content.toBytes <$> b.readByName file' name := by
  rw [readByName, readByName, same.find?_eq]
  rcases b.find? name with e | _ | l
  · rfl
  · rfl
  · exact toBytes_readContent_congr same length alike ..

/-! ### From opening to reading -/

/-- Two archives agree in all that is fixed when they are opened. -/
structure SameAnswers (a b : Archive) : Prop where
  header : a.header = b.header
  indexSize : a.indexSize = b.indexSize
  length : a.length = b.length
  find? : ∀ name, a.find? name = b.find? name
  findInModule? : ∀ module path, a.findInModule? module path = b.findInModule? module path
  locationAt : ∀ offset, a.locationAt offset = b.locationAt offset
  readings : a.readings = b.readings
  locations : a.locations = b.locations
  entryNames : a.entryNames = b.entryNames
  moduleNames : a.moduleNames = b.moduleNames
  verify : a.verify = b.verify

theorem SameIndex.sameAnswers {a b : Archive} (same : a.SameIndex b) (length : a.length = b.length) :
    a.SameAnswers b where
  header := same.header_eq
  indexSize := same.indexSize_eq
  length := length
  find? := same.find?_eq
  findInModule? := same.findInModule?_eq
  locationAt := same.locationAt_eq
  readings := same.readings_eq
  locations := same.locations_eq
  entryNames := same.entryNames_eq
  moduleNames := same.moduleNames_eq
  verify := same.verify_eq length

end Archive

namespace FileSystem

/-- Opening a file and opening its bytes fail alike, or give archives with the same answers, and the same
    contents as long as the file keeps its bytes. However the file changes, a read is out of range where
    it was out of range at first, and else gives the bytes that are there now, or finds the file too
    short. -/
theorem openArchive_agrees {fs : FileSystem} {p : Path} {id : FileId} (regular : fs.fileAt p = .ok id)
    (o : ByteOrder) :
    (∃ e, fs.openArchive o p = .error e ∧ Archive.ofBytes o (fs.content id).toBytes = .error e)
    ∨ ∃ image a, fs.openArchive o p = .ok image ∧ image.file = id
      ∧ Archive.ofBytes o (fs.content id).toBytes = .ok a
      ∧ image.archive.SameAnswers a
      ∧ (∀ later : FileSystem, (later.content id).toBytes = (fs.content id).toBytes →
          (∀ offset size, Content.toBytes <$> image.archive.readContent (later.content id) offset size
            = Content.toBytes <$> a.readContent (.ofBytes (fs.content id).toBytes) offset size)
          ∧ ∀ name, Content.toBytes <$> image.archive.readByName (later.content id) name
            = Content.toBytes <$> a.readByName (.ofBytes (fs.content id).toBytes) name)
      ∧ ∀ (later : FileSystem) (offset size : UInt64),
          let start := a.indexSize + offset.toNat
          let stop := start + size.toNat
          Content.toBytes <$> image.archive.readContent (later.content id) offset size =
            if stop ≤ (fs.content id).length ∧ stop < UInt64.size then
              if size = 0 ∨ stop ≤ (later.content id).length then
                .ok (((later.content id).toBytes.drop start).take size.toNat)
              else .error (.io .unexpectedEnd)
            else .error (.contentOutOfRange offset size (fs.content id).length) := by
  rcases Archive.ofFile_cases o (fs.content id) with ⟨e, refused, refused'⟩
    | ⟨archive, a, opened, opened', same, length⟩
  · exact .inl ⟨e, by simp only [openArchive, regular, refused], refused'⟩
  have image : fs.openArchive o p = .ok ⟨archive, id, p⟩ := by
    simp only [openArchive, regular, opened]
  have whole : archive.length = (fs.content id).length := by
    rw [length, (Archive.ofBytes_eq_ok.1 opened').length_eq, Content.toBytes_length]
  refine .inr ⟨⟨archive, id, p⟩, a, image, rfl, opened', same.sameAnswers length, ?_, ?_⟩
  · intro later unchanged
    have alike := unchanged.trans (Content.toBytes_ofBytes (fs.content id).toBytes).symm
    exact ⟨Archive.toBytes_readContent_congr same length alike,
      Archive.toBytes_readByName_congr same length alike⟩
  · intro later offset size
    simp only [Archive.toBytes_readContent, Archive.holds_iff, same.indexSize_eq, whole]

/-- A container in a file `a`, which is cut off after it was opened. -/
def oneFile : FileSystem where
  root := .directory [(utf8 "a", .file 0)]
  contents := #[.ofBytes Archive.small]

theorem openArchive_agrees_oneFile : ∃ image a, oneFile.openArchive .little ⟨utf8 "a"⟩ = .ok image
    ∧ Archive.ofBytes .little Archive.small = .ok a ∧ image.archive.verify = a.verify
    ∧ Content.toBytes <$> image.archive.readContent
        ((oneFile.setContent 0 (.ofBytes [])).content 0) 0 2 = .error (.io .unexpectedEnd) := by
  have regular : oneFile.fileAt ⟨utf8 "a"⟩ = .ok 0 := rfl
  have bytes : (oneFile.content 0).toBytes = Archive.small := rfl
  rcases openArchive_agrees regular .little with ⟨e, -, refused⟩
    | ⟨image, a, opened, -, opened', same, -, later⟩
  · cases refused
  · rw [bytes] at opened'
    have size : a.indexSize = 48 := by
      cases opened'
      rfl
    have read := later (oneFile.setContent 0 (.ofBytes [])) 0 2
    rw [size] at read
    exact ⟨image, a, opened, opened', same.verify, read⟩

end FileSystem

end ResourceArchive
