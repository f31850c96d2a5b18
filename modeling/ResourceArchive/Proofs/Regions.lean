import ResourceArchive.Proofs.Find
import ResourceArchive.Proofs.Header

/-! Archives with the same regions. An archive keeps the regions of its index as contents, in whatever
    runs; what is found, located and listed depends on the bytes of the regions only. So two archives
    whose containers agree up to the end of the index give the same answers, whatever follows it and
    however long the containers are. -/

namespace ResourceArchive

/-! ### Regions of a container -/

namespace Header

variable (h : Header) (data : Bytes)

/-- The redirect table of a container with this header. -/
def redirectsIn : Bytes := (data.drop h.redirectOffset).take h.tableSize

/-- The offset table. -/
def offsetsIn : Bytes := (data.drop h.offsetsOffset).take h.tableSize

/-- The location records. -/
def recordsIn : Bytes := (data.drop h.locationsOffset).take h.locationsSize.toNat

/-- The string pool. -/
def stringsIn : Bytes := (data.drop h.stringsOffset).take h.stringsSize.toNat

/-- All that follows the index. -/
def contentIn : Bytes := data.drop h.indexSize

end Header

/-! ### Same bytes, same answers -/

theorem Tables.candidateOffset_congr {s t : Tables} (size : s.size = t.size)
    (redirects : ∀ i, s.redirects.get? i = t.redirects.get? i)
    (offsets : ∀ i, s.offsets.get? i = t.offsets.get? i) (name : Bytes) :
    s.candidateOffset name = t.candidateOffset name := by
  have slot : s.candidateSlot name = t.candidateSlot name := by
    simp only [candidateSlot, redirect, size, redirects]
  simp only [candidateOffset, slot, offset, offsets]

theorem Pool.textAt_congr {p q : Pool} (same : p.content.toBytes = q.content.toBytes)
    (offset : UInt64) : p.textAt offset = q.textAt offset := by
  rw [textAt, textAt, bytesAt_eq, bytesAt_eq, same]

theorem Location.resolve_congr {p q : Pool} (same : p.content.toBytes = q.content.toBytes)
    (record : Record) : resolve record p = resolve record q := by
  simp only [resolve, Pool.textAt_congr same]

namespace Archive

/-- As many records are due in two archives, and their records and strings are the same bytes. -/
structure SameRecords (a b : Archive) : Prop where
  count : a.resourceCount = b.resourceCount
  records : a.records.toBytes = b.records.toBytes
  strings : a.strings.content.toBytes = b.strings.content.toBytes

namespace SameRecords

variable {a b : Archive} (h : a.SameRecords b)
include h

theorem locationAt_eq (offset : UInt32) : a.locationAt offset = b.locationAt offset := by
  have resolve := Location.resolve_congr h.strings
  simp only [locationAt, Location.readAt_eq, Location.decode, ← Content.toBytes_length, h.records,
    resolve]

theorem next?_eq (c : Cursor) : a.next? c = b.next? c := by
  have resolve := Location.resolve_congr h.strings
  simp only [next?, Record.readAt_eq, ← Content.toBytes_length, h.records, resolve]

theorem readingsFrom_eq (n : Nat) (c : Cursor) : a.readingsFrom n c = b.readingsFrom n c := by
  induction n generalizing c with
  | zero => rfl
  | succ n ih => simp only [readingsFrom, h.next?_eq, ih]

theorem readings_eq : a.readings = b.readings := by
  rw [readings, readings, cursor, cursor, h.count, h.readingsFrom_eq]

theorem locations_eq : a.locations = b.locations := congrArg (List.map Prod.snd) h.readings_eq

theorem fold_eq {σ : Type} (use : σ → Location → Except Error σ) (state : σ) :
    a.fold use state = b.fold use state := by
  rw [Archive.fold_eq, Archive.fold_eq, h.locations_eq]

theorem entryNames_eq : a.entryNames = b.entryNames := by
  rw [entryNames, entryNames, h.fold_eq]

theorem moduleNames_eq : a.moduleNames = b.moduleNames := by
  rw [moduleNames, moduleNames, h.fold_eq]

end SameRecords

/-- Two archives with one header and the same records, whose tables lead every name to the same
    record. -/
structure SameIndex (a b : Archive) : Prop extends SameRecords a b where
  header_eq : a.header = b.header
  leads : ∀ name, a.tables.candidateOffset name = b.tables.candidateOffset name

namespace SameIndex

theorem refl (a : Archive) : a.SameIndex a := ⟨⟨rfl, rfl, rfl⟩, rfl, fun _ => rfl⟩

variable {a b : Archive} (h : a.SameIndex b)
include h

theorem indexSize_eq : a.indexSize = b.indexSize := congrArg Header.indexSize h.header_eq

theorem find?_eq (name : String) : a.find? name = b.find? name := by
  simp only [find?, h.leads, h.locationAt_eq]

theorem findInModule?_eq (module path : String) :
    a.findInModule? module path = b.findInModule? module path :=
  h.find?_eq _

theorem holds_eq (length : a.length = b.length) (offset size : UInt64) :
    a.holds offset size = b.holds offset size := by
  rw [holds, holds, h.indexSize_eq, length]

theorem verify_eq (length : a.length = b.length) : a.verify = b.verify := by
  have check (l : Location) : a.check l = b.check l := by
    rw [check, check, h.find?_eq, h.holds_eq length, length]
  simp only [verify, check, h.fold_eq]

end SameIndex

/-! ### Reading -/

/-- Where the content of a location ends in the container. -/
def stop (a : Archive) (l : Location) : Nat :=
  a.indexSize + l.contentOffset.toNat + l.storedSize.toNat

/-- The bytes of a resource of a container in memory. -/
def bytesNamed (a : Archive) (data : Bytes) (name : String) : Except Error Bytes :=
  Content.toBytes <$> a.readByName (.ofBytes data) name

/-- A range that lay within the container as it was opened is read from what holds the container now. -/
theorem toBytes_readContent (a : Archive) (file : Content) (offset size : UInt64) :
    Content.toBytes <$> a.readContent file offset size =
      if a.holds offset size then
        if size = 0 ∨ a.indexSize + offset.toNat + size.toNat ≤ file.length then
          .ok ((file.toBytes.drop (a.indexSize + offset.toNat)).take size.toNat)
        else .error (.io .unexpectedEnd)
      else .error (.contentOutOfRange offset size a.length) := by
  have full : (file.slice (a.indexSize + offset.toNat) size.toNat).length = size.toNat
      ↔ size = 0 ∨ a.indexSize + offset.toNat + size.toNat ≤ file.length := by
    have zero : size = 0 ↔ size.toNat = 0 := by
      rw [← UInt64.toNat_inj]
      rfl
    rw [Content.slice_length, zero]
    omega
  unfold readContent
  split
  · simp only [full]
    split
    · rw [ok_map, Content.toBytes_slice]
    · rfl
  · rfl

theorem bytesNamed_eq {a : Archive} {l : Location} {name : String}
    (found : a.find? name = .ok (some l)) (data : Bytes) :
    a.bytesNamed data name
      = Content.toBytes <$> a.readContent (.ofBytes data) l.contentOffset l.storedSize := by
  rw [bytesNamed, readByName_eq found]

theorem bytesNamed_absent {a : Archive} {name : String} (absent : a.find? name = .ok none)
    (data : Bytes) : a.bytesNamed data name = .error (.notFound name) := by
  rw [bytesNamed, readByName, absent]
  rfl

/-! ### What an opened archive keeps -/

/-- The regions of an archive are those that a header marks off in some bytes. -/
structure Marked (a : Archive) (o : ByteOrder) (h : Header) (bs : Bytes) : Prop where
  header_eq : a.header = h
  size_eq : a.tables.size = h.bucketCount.toNat
  redirects : ∀ i, a.tables.redirects.get? i = (o.words (h.redirectsIn bs))[i]?
  offsets : ∀ i, a.tables.offsets.get? i = (o.words (h.offsetsIn bs))[i]?
  records : a.records.toBytes = h.recordsIn bs
  strings : a.strings.content.toBytes = h.stringsIn bs

variable {a b : Archive} {o : ByteOrder} {h : Header} {bs bs' data : Bytes} {file : Content}

theorem Marked.sameIndex (ha : a.Marked o h bs) (hb : b.Marked o h bs')
    (same : bs.take h.indexSize = bs'.take h.indexSize) : a.SameIndex b := by
  -- No region reaches past the end of the index.
  have ends : h.redirectOffset + h.tableSize ≤ h.indexSize
      ∧ h.offsetsOffset + h.tableSize ≤ h.indexSize
      ∧ h.locationsOffset + h.locationsSize.toNat ≤ h.indexSize
      ∧ h.stringsOffset + h.stringsSize.toNat ≤ h.indexSize := by
    simp only [Header.indexSize, Header.stringsOffset, Header.locationsOffset, Header.offsetsOffset]
    omega
  obtain ⟨redirects, offsets, records, strings⟩ := ends
  have redirects : h.redirectsIn bs = h.redirectsIn bs' := Header.take_drop_congr same redirects
  have offsets : h.offsetsIn bs = h.offsetsIn bs' := Header.take_drop_congr same offsets
  have records : h.recordsIn bs = h.recordsIn bs' := Header.take_drop_congr same records
  have strings : h.stringsIn bs = h.stringsIn bs' := Header.take_drop_congr same strings
  have header := ha.header_eq.trans hb.header_eq.symm
  exact {
    count := congrArg (·.resourceCount.toNat) header
    records := by rw [ha.records, hb.records, records]
    strings := by rw [ha.strings, hb.strings, strings]
    header_eq := header
    leads := Tables.candidateOffset_congr (ha.size_eq.trans hb.size_eq.symm)
      (fun i => by rw [ha.redirects, hb.redirects, redirects])
      (fun i => by rw [ha.offsets, hb.offsets, offsets]) }

/-- An index that is long enough for its header can be opened. -/
theorem ofIndex_marked {index : Content} (long : h.indexSize ≤ index.length) (n : Nat) :
    ∃ a, ofIndex o h index n = .ok a ∧ a.length = n ∧ a.Marked o h index.toBytes := by
  have table (offset : Nat) (inside : offset + h.tableSize ≤ h.indexSize) :
      (index.slice offset h.tableSize).length = 4 * h.bucketCount.toNat := by
    rw [Content.slice_length, ← Header.tableSize]
    omega
  have taken : Tables.ofContents (index.slice h.redirectOffset h.tableSize)
      (index.slice h.offsetsOffset h.tableSize) h.bucketCount.toNat o = .ok _ :=
    if_pos ⟨table _ (by simp only [Header.indexSize, Header.stringsOffset, Header.locationsOffset,
        Header.offsetsOffset]; omega),
      table _ (by simp only [Header.indexSize, Header.stringsOffset, Header.locationsOffset]; omega)⟩
  have opened : ofIndex o h index n = .ok _ := bind_eq_ok.2 ⟨_, taken, rfl⟩
  exact ⟨_, opened, rfl, {
    header_eq := rfl
    size_eq := rfl
    redirects := fun i => by rw [WordTable.get?_eq, Content.toBytes_slice]; rfl
    offsets := fun i => by rw [WordTable.get?_eq, Content.toBytes_slice]; rfl
    records := Content.toBytes_slice ..
    strings := Content.toBytes_slice .. }⟩

theorem ofBytes_of_parse_error {e : Error} (refused : Header.parse data o = .error e) :
    ofBytes o data = .error e := by
  rw [ofBytes, refused]
  rfl

/-- A container in memory is opened if its header can be read and its index is all there. -/
theorem ofBytes_marked (parsed : Header.parse data o = .ok h) (indexed : h.indexSize ≤ data.length) :
    ∃ a, ofBytes o data = .ok a ∧ a.length = data.length ∧ a.Marked o h data := by
  have long : h.indexSize ≤ (Content.ofBytes data).length := by
    rwa [← Content.toBytes_length, Content.toBytes_ofBytes]
  obtain ⟨a, opened, length, marked⟩ := ofIndex_marked (o := o) long data.length
  rw [Content.toBytes_ofBytes] at marked
  refine ⟨a, bind_eq_ok.2 ⟨h, parsed, ?_⟩, length, marked⟩
  simp only [if_neg (Nat.not_lt.2 indexed)]
  exact opened

/-- So is one in a file, of which only the header and the index are read. -/
theorem ofFile_marked (parsed : Header.parse (file.range 0 Header.size) o = .ok h)
    (indexed : h.indexSize ≤ file.length) :
    ∃ a, ofFile o file = .ok a ∧ a.length = file.length
      ∧ a.Marked o h (file.toBytes.take h.indexSize) := by
  have long : h.indexSize ≤ (file.slice 0 h.indexSize).length := by
    rw [Content.slice_length]
    omega
  obtain ⟨a, opened, length, marked⟩ := ofIndex_marked (o := o) long file.length
  rw [Content.toBytes_slice, List.drop_zero] at marked
  refine ⟨a, bind_eq_ok.2 ⟨h, parsed, ?_⟩, length, marked⟩
  simp only [if_neg (Nat.not_lt.2 indexed)]
  exact opened

/-- An open archive keeps the regions of the container that it was opened from. -/
theorem Opened.marked (opened : a.Opened o data) : a.Marked o a.header data := by
  obtain ⟨b, again, -, marked⟩ := ofBytes_marked opened.parsed opened.indexed
  obtain rfl : b = a := Except.ok.inj (again.symm.trans (ofBytes_eq_ok.2 opened))
  exact marked

end Archive

end ResourceArchive
