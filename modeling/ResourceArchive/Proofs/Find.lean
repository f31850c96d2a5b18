import ResourceArchive.Archive
import ResourceArchive.Proofs.Name

/-! Finding and reading in a container that could be opened, whatever its bytes are. Redirects, record
    offsets, records and strings may be arbitrary; what is found nevertheless has the name that was
    asked for, and what is read is the stretch of the container that the record gives. -/

namespace ResourceArchive

/-- An archive keeps the header and the regions of the bytes that it was opened from. -/
structure Archive.Opened (a : Archive) (o : ByteOrder) (data : Bytes) : Prop where
  order_eq : a.order = o
  parsed : Header.parse data o = .ok a.header
  indexed : a.indexSize ≤ data.length
  length_eq : a.length = data.length
  tables : Tables.ofContents ((Content.ofBytes data).slice a.header.redirectOffset a.header.tableSize)
    ((Content.ofBytes data).slice a.header.offsetsOffset a.header.tableSize)
    a.header.bucketCount.toNat o = .ok a.tables
  records : a.records
    = (Content.ofBytes data).slice a.header.locationsOffset a.header.locationsSize.toNat
  strings : a.strings
    = ⟨(Content.ofBytes data).slice a.header.stringsOffset a.header.stringsSize.toNat⟩

namespace Archive

variable {o : ByteOrder} {data : Bytes} {a : Archive} {name : String} {l : Location}

/-- Opening gives what `Opened` says, and gives nothing else. -/
theorem ofBytes_eq_ok : ofBytes o data = .ok a ↔ a.Opened o data := by
  unfold ofBytes ofIndex
  constructor
  · intro opened
    obtain ⟨h, parsed, opened⟩ := bind_eq_ok.1 opened
    split at opened
    · cases opened
    · next indexed =>
      obtain ⟨t, tables, opened⟩ := bind_eq_ok.1 opened
      cases opened
      exact ⟨rfl, parsed, Nat.le_of_not_lt indexed, rfl, tables, rfl, rfl⟩
  · intro h
    have indexed : ¬data.length < a.header.indexSize := Nat.not_lt.2 h.indexed
    refine bind_eq_ok.2 ⟨_, h.parsed, ?_⟩
    simp only [if_neg indexed]
    refine bind_eq_ok.2 ⟨_, h.tables, ?_⟩
    rw [← h.records, ← h.strings, ← h.length_eq, ← h.order_eq]
    rfl

/-! ### Finding -/

/-- What is found is what the record holds to which the index leads, and it has the name. -/
theorem find?_eq_some : a.find? name = .ok (some l) ↔
    ∃ offset, a.tables.candidateOffset (utf8 name) = .ok (some offset) ∧ a.locationAt offset = .ok l
      ∧ l.fullName = name := by
  unfold find?
  constructor
  · intro found
    obtain ⟨candidate, led, found⟩ := bind_eq_ok.1 found
    rcases candidate with _ | offset
    · cases found
    obtain ⟨m, there, found⟩ := bind_eq_ok.1 found
    have found : (if m.name.accepts (utf8 name) then some m else none) = some l := Except.ok.inj found
    split at found
    · next same =>
      cases found
      exact ⟨offset, led, there, utf8_inj.1 (NameParts.accepts_iff.1 same)⟩
    · cases found
  · rintro ⟨offset, led, there, same⟩
    refine bind_eq_ok.2 ⟨_, led, bind_eq_ok.2 ⟨l, there, ?_⟩⟩
    rw [if_pos (NameParts.accepts_iff.2 (utf8_inj.2 same))]
    rfl

/-! ### Reading -/

theorem holds_iff {offset size : UInt64} : a.holds offset size ↔
    a.indexSize + offset.toNat + size.toNat ≤ a.length
      ∧ a.indexSize + offset.toNat + size.toNat < UInt64.size := by
  simp [holds]

/-- A range of the content that lies in the container is read in full. -/
theorem Opened.readContent_inside (h : a.Opened o data) {offset size : UInt64}
    (inside : a.indexSize + offset.toNat + size.toNat ≤ data.length)
    (word : a.indexSize + offset.toNat + size.toNat < UInt64.size) :
    ∃ content, a.readContent (.ofBytes data) offset size = .ok content
      ∧ content.toBytes = (data.drop (a.indexSize + offset.toNat)).take size.toNat := by
  have full : ((Content.ofBytes data).slice (a.indexSize + offset.toNat) size.toNat).length
      = size.toNat := by
    rw [Content.slice_length, ← Content.toBytes_length, Content.toBytes_ofBytes]
    omega
  refine ⟨_, ?_, by rw [Content.toBytes_slice, Content.toBytes_ofBytes]⟩
  rw [readContent, if_pos (holds_iff.2 ⟨h.length_eq ▸ inside, word⟩)]
  exact if_pos full

/-- Any other range is refused, with the range and the length of the container. -/
theorem Opened.readContent_outside (h : a.Opened o data) {offset size : UInt64}
    (outside : data.length < a.indexSize + offset.toNat + size.toNat
      ∨ UInt64.size ≤ a.indexSize + offset.toNat + size.toNat) (file : Content) :
    a.readContent file offset size = .error (.contentOutOfRange offset size data.length) := by
  rw [readContent, if_neg, h.length_eq]
  intro held
  obtain ⟨inside, word⟩ := holds_iff.1 held
  rw [h.length_eq] at inside
  omega

theorem readByName_eq (found : a.find? name = .ok (some l)) (file : Content) :
    a.readByName file name = a.readContent file l.contentOffset l.storedSize := by
  rw [readByName, found]
  rfl

theorem check_of_find? (found : a.find? l.fullName = .ok (some l))
    (held : a.holds l.contentOffset l.storedSize) : a.check l = .ok () := by
  simp [check, found, held, pure, Except.pure]

/-- Nothing is found under a name that it does not have, and nothing is read from outside a
    container, however the container came about. -/
theorem find?_sound {o : ByteOrder} {data : Bytes} {a : Archive} {name : String} {l : Location}
    (opened : ofBytes o data = .ok a) (found : a.find? name = .ok (some l)) :
    utf8 l.fullName = utf8 name
    ∧ (∃ offset, a.tables.candidateOffset (utf8 name) = .ok (some offset)
        ∧ a.locationAt offset = .ok l)
    ∧ (∀ content, a.readByName (.ofBytes data) name = .ok content →
        a.indexSize + l.contentOffset.toNat + l.storedSize.toNat ≤ data.length
        ∧ content.toBytes.length = l.storedSize.toNat
        ∧ content.toBytes
          = (data.drop (a.indexSize + l.contentOffset.toNat)).take l.storedSize.toNat)
    ∧ (a.indexSize + l.contentOffset.toNat + l.storedSize.toNat ≤ data.length →
        a.indexSize + l.contentOffset.toNat + l.storedSize.toNat < UInt64.size →
        ∃ content, a.readByName (.ofBytes data) name = .ok content)
    ∧ (data.length < a.indexSize + l.contentOffset.toNat + l.storedSize.toNat
          ∨ UInt64.size ≤ a.indexSize + l.contentOffset.toNat + l.storedSize.toNat →
        a.readByName (.ofBytes data) name
          = .error (.contentOutOfRange l.contentOffset l.storedSize data.length)) := by
  have h := ofBytes_eq_ok.1 opened
  obtain ⟨offset, led, there, same⟩ := find?_eq_some.1 found
  rw [readByName_eq found]
  refine ⟨utf8_inj.2 same, ⟨offset, led, there⟩, ?_, ?_,
    fun outside => h.readContent_outside outside _⟩
  · intro content read
    by_cases outside : data.length < a.indexSize + l.contentOffset.toNat + l.storedSize.toNat
        ∨ UInt64.size ≤ a.indexSize + l.contentOffset.toNat + l.storedSize.toNat
    · rw [h.readContent_outside outside] at read
      cases read
    · obtain ⟨inside, word⟩ := not_or.1 outside
      obtain ⟨_, read', bytes⟩ := h.readContent_inside (Nat.not_lt.1 inside) (Nat.not_le.1 word)
      cases read.symm.trans read'
      refine ⟨Nat.not_lt.1 inside, ?_, bytes⟩
      rw [bytes, List.length_take, List.length_drop]
      omega
  · intro inside word
    obtain ⟨content, read, -⟩ := h.readContent_inside inside word
    exact ⟨content, read⟩

/-- A container of one resource, `a`, of two bytes. Its only redirect is the signed word -1. -/
def small : Bytes :=
  (Header.ofSizes 1 1 5 3).encode .little ++ [0xFF, 0xFF, 0xFF, 0xFF] ++ [0, 0, 0, 0]
    ++ [3, 1, 7, 2, 0] ++ [0, 0x61, 0] ++ [5, 6]

theorem find?_sound_small :
    ∃ a l content, ofBytes .little small = .ok a ∧ a.find? "a" = .ok (some l) ∧ l.fullName = "a"
      ∧ a.readByName (.ofBytes small) "a" = .ok content ∧ content.toBytes = [5, 6] := by
  obtain ⟨a, opened, found, size⟩ : ∃ a, ofBytes .little small = .ok a
      ∧ a.find? "a" = .ok (some ⟨⟨"", "", "a", ""⟩, 0, 0, 2⟩) ∧ a.indexSize = 48 :=
    ⟨_, rfl, rfl, rfl⟩
  obtain ⟨same, -, bytes, inside, -⟩ := find?_sound opened found
  rw [size] at bytes inside
  obtain ⟨content, read⟩ := inside (by decide) (by decide)
  exact ⟨a, _, content, opened, found, utf8_inj.1 same, read, (bytes content read).2.2⟩

end Archive

end ResourceArchive
