import ResourceArchive.Proofs.Draft
import ResourceArchive.Proofs.Find
import ResourceArchive.Proofs.Header
import ResourceArchive.Proofs.Layout

/-! Opening what was laid out. The regions that an archive takes from the bytes of a layout are the
    regions of the layout, so every record is read where it was written. -/

namespace ResourceArchive

theorem toBytes_slice_middle {data before middle after : Bytes} {offset size : Nat}
    (whole : data = before ++ (middle ++ after)) (here : before.length = offset)
    (long : middle.length = size) : ((Content.ofBytes data).slice offset size).toBytes = middle := by
  rw [Content.toBytes_slice, Content.toBytes_ofBytes, whole, ← here, List.drop_left, ← long,
    List.take_left]

namespace Draft

theorem Layout.toBytes_toContent (l : Layout) (o : ByteOrder) :
    (l.toContent o).toBytes = l.header.encode o
      ++ ((l.assignment.redirectTable o).content.toBytes
      ++ ((l.assignment.offsetTable l.recordOffsets o).content.toBytes
      ++ (l.records.flatten ++ (l.strings ++ l.contents.flatMap Content.toBytes)))) := by
  simp only [Layout.toContent, Layout.pieces, Content.toBytes_join, List.flatMap_cons,
    Content.toBytes_ofBytes]

/-- An archive of a draft: its regions are those of a layout, and the contents follow its index. -/
structure Packed (d : Draft) (o : ByteOrder) (data : Bytes) (a : Archive) (l : Layout) : Prop where
  opened : a.Opened o data
  tables : a.tables.Holds l.assignment l.recordOffsets
  records : a.records.toBytes = l.records.flatten
  strings : a.strings.content.toBytes = l.strings
  contents : data.drop a.indexSize = l.contents.flatMap Content.toBytes
  count : a.resourceCount = d.size

variable {d : Draft} {l : Layout} {size : Nat} {rs : List Record}

theorem Laid.size_lt (h : d.Laid l size rs) : size < UInt32.size :=
  Nat.lt_of_le_of_lt h.perfect.size_le (by decide)

theorem Laid.size_le (h : d.Laid l size rs) : d.size ≤ size := by
  have room := h.perfect.room
  rwa [List.length_map, resources_length] at room

/-- The sizes in the header are those of the regions. -/
theorem Laid.sizes (h : d.Laid l size rs) :
    l.header.bucketCount.toNat = size ∧ l.header.resourceCount.toNat = d.size
      ∧ l.header.locationsSize.toNat = l.records.flatten.length
      ∧ l.header.stringsSize.toNat = l.strings.length := by
  have few := Nat.lt_of_le_of_lt h.size_le h.size_lt
  rw [h.header_eq]
  exact ⟨UInt32.toNat_ofNat_of_lt' h.size_lt, UInt32.toNat_ofNat_of_lt' few,
    UInt32.toNat_ofNat_of_lt' h.records_lt, UInt32.toNat_ofNat_of_lt' h.strings_lt⟩

theorem Laid.header_valid (h : d.Laid l size rs) :
    l.header.magic = Header.magicWord ∧ l.header.validate = .ok () := by
  have few := Nat.lt_of_le_of_lt h.size_le h.size_lt
  rw [h.header_eq]
  refine ⟨rfl, Header.validate_ofSizes ?_⟩
  rw [UInt32.le_iff_toNat_le, UInt32.toNat_ofNat_of_lt' few, UInt32.toNat_ofNat_of_lt' h.size_lt]
  exact h.size_le

/-- What a layout is written to can be opened. -/
theorem Laid.packed (h : d.Laid l size rs) (o : ByteOrder) :
    ∃ a, d.Packed o (l.toContent o).toBytes a l := by
  have whole := l.toBytes_toContent o
  generalize (l.toContent o).toBytes = data at whole
  obtain ⟨buckets, count, records_size, strings_size⟩ := h.sizes
  obtain ⟨magic, valid⟩ := h.header_valid
  have header_length := l.header.encode_length o
  have table_size : l.header.tableSize = 4 * size := by rw [Header.tableSize, buckets]
  have redirects_length := h.perfect.redirectTable_length o
  have offsets_length := h.perfect.offsetTable_length l.recordOffsets o
  rw [← Content.toBytes_length] at redirects_length offsets_length
  generalize htable : (l.assignment.redirectTable o).content.toBytes = redirects at *
  generalize htable' : (l.assignment.offsetTable l.recordOffsets o).content.toBytes = offsets at *
  have parsed : Header.parse data o = .ok l.header := whole ▸ Header.parse_encode o _ magic valid
  generalize l.header.encode o = header at *
  -- Each region stands behind those before it.
  have at₁ : header.length = l.header.redirectOffset := header_length
  have at₂ : (header ++ redirects).length = l.header.offsetsOffset := by
    rw [List.length_append, at₁, redirects_length, Header.offsetsOffset, table_size]
  have at₃ : (header ++ redirects ++ offsets).length = l.header.locationsOffset := by
    rw [List.length_append, at₂, offsets_length, Header.locationsOffset, table_size]
  have at₄ : (header ++ redirects ++ offsets ++ l.records.flatten).length = l.header.stringsOffset := by
    rw [List.length_append, at₃, Header.stringsOffset, records_size]
  have at₅ : (header ++ redirects ++ offsets ++ l.records.flatten ++ l.strings).length
      = l.header.indexSize := by
    rw [List.length_append, at₄, Header.indexSize, strings_size]
  have redirects_at := toBytes_slice_middle whole at₁ (redirects_length.trans table_size.symm)
  rw [← List.append_assoc] at whole
  have offsets_at := toBytes_slice_middle whole at₂ (offsets_length.trans table_size.symm)
  rw [← List.append_assoc] at whole
  have records_at := toBytes_slice_middle whole at₃ records_size.symm
  rw [← List.append_assoc] at whole
  have strings_at := toBytes_slice_middle whole at₄ strings_size.symm
  rw [← List.append_assoc] at whole
  have contents_at : data.drop l.header.indexSize = l.contents.flatMap Content.toBytes := by
    rw [whole, ← at₅, List.drop_left]
  have indexed : l.header.indexSize ≤ data.length := by
    rw [whole, List.length_append, at₅]
    exact Nat.le_add_right ..
  have taken : Tables.ofContents ((Content.ofBytes data).slice l.header.redirectOffset l.header.tableSize)
      ((Content.ofBytes data).slice l.header.offsetsOffset l.header.tableSize)
      l.header.bucketCount.toNat o = .ok _ :=
    if_pos ⟨by rw [← Content.toBytes_length, redirects_at, redirects_length, buckets],
      by rw [← Content.toBytes_length, offsets_at, offsets_length, buckets]⟩
  refine ⟨⟨o, l.header, _, _, _, data.length⟩, {
    opened := ⟨rfl, parsed, indexed, rfl, taken, rfl, rfl⟩
    tables := h.perfect.holds (o := o) buckets ?_ ?_
    records := records_at
    strings := strings_at
    contents := contents_at
    count := count }⟩
  · intro b _
    rw [WordTable.get?_eq, WordTable.get?_eq, redirects_at, htable]
    rfl
  · intro s _
    rw [WordTable.get?_eq, WordTable.get?_eq, offsets_at, htable']
    rfl

end Draft

/-! ### Records -/

namespace Archive

variable {a : Archive} {before after : Bytes}

theorem encode_ne_nil (r : Record) : r.encode ≠ [] :=
  List.append_ne_nil_of_right_ne_nil _ (List.cons_ne_nil _ _)

/-- A record is read from where it begins. -/
theorem locationAt_eq {offset : UInt32} {r : Record} {l : Location}
    (bytes : a.records.toBytes = before ++ (r.encode ++ after)) (here : before.length = offset.toNat)
    (resolves : Location.resolve r a.strings = .ok l) : a.locationAt offset = .ok l := by
  have inside : ¬a.records.length ≤ offset.toNat := by
    have := List.length_pos_of_ne_nil (encode_ne_nil r)
    rw [← Content.toBytes_length, bytes, List.length_append, List.length_append]
    omega
  rw [locationAt, if_neg inside, Location.readAt_eq, bytes, ← here, List.drop_left, Location.decode,
    Record.decode_encode]
  exact resolves

/-- The records are read one after another, and none is left over. -/
theorem readingsFrom_eq {rs : List Record} {ls : List Location}
    (resolves : List.Forall₂ (fun r l => Location.resolve r a.strings = .ok l) rs ls)
    (bytes : a.records.toBytes = before ++ (rs.map Record.encode).flatten) :
    (a.readingsFrom rs.length ⟨before.length, rs.length⟩).map Prod.snd = ls.map .ok := by
  induction resolves generalizing before with
  | nil => rfl
  | @cons r l rs ls first others ih =>
    rw [List.map_cons, List.flatten_cons] at bytes
    have read : Record.readAt a.records before.length = .ok (r, (before ++ r.encode).length) := by
      rw [Record.readAt_eq, bytes, List.drop_left, Record.decode_encode, ← Content.toBytes_length,
        bytes, ← List.append_assoc, List.length_append]
      show Except.ok (r, _) = _
      rw [Nat.add_sub_cancel]
    rw [← List.append_assoc] at bytes
    have ih := ih bytes
    rw [List.length_cons, readingsFrom, next?, List.map_cons]
    simp only [read, first]
    rw [List.map_cons, ih]

end Archive

namespace Draft

variable {d : Draft} {o : ByteOrder} {data : Bytes} {a : Archive} {l : Layout} {size : Nat}
  {rs : List Record}

/-- The location of the resource at a place. -/
def locationOf (d : Draft) (i : Nat) (hi : i < d.resources.length) : Location :=
  location (contentBefore d.resources i) d.resources[i]

theorem exists_locationOf {m : Location} (hm : m ∈ locations 0 d.resources) :
    ∃ i hi, m = d.locationOf i hi := by
  obtain ⟨i, hi, rfl⟩ := List.mem_iff_getElem.1 hm
  have place : i < d.resources.length := by rwa [locations_length] at hi
  have listed := getElem?_locations 0 d.resources place
  rw [List.getElem?_eq_getElem hi, Nat.zero_add] at listed
  exact ⟨i, place, Option.some.inj listed⟩

theorem Laid.resolves (laid : d.Laid l size rs) (packed : d.Packed o data a l) :
    List.Forall₂ (fun r l => Location.resolve r a.strings = .ok l) rs (locations 0 d.resources) :=
  laid.locates.imp fun _ _ locates => locates a.strings (packed.strings ▸ List.prefix_refl _)

/-- The records of an archive of a draft are those of the resources, in the order of their names. -/
theorem Laid.locations_eq (laid : d.Laid l size rs) (packed : d.Packed o data a l) :
    a.locations = (locations 0 d.resources).map .ok := by
  have resolves := laid.resolves packed
  have count : a.resourceCount = rs.length := by
    rw [packed.count, resolves.length_eq, locations_length, resources_length]
  have bytes : a.records.toBytes = [] ++ (rs.map Record.encode).flatten := by
    rw [packed.records, laid.records_eq, List.nil_append]
  rw [Archive.locations, Archive.readings, Archive.cursor, count]
  exact Archive.readingsFrom_eq resolves bytes

/-- The offset of a record leads to the location of its resource. -/
theorem Laid.locationAt (laid : d.Laid l size rs) (packed : d.Packed o data a l) {i : Nat}
    (hi : i < d.resources.length) :
    ∃ offset, l.recordOffsets[i]? = some offset ∧ a.locationAt offset = .ok (d.locationOf i hi)
      ∧ (i = 0 → offset = 0) := by
  have resolves := laid.resolves packed
  have among : i < rs.length := by rwa [resolves.length_eq, locations_length]
  have place : i < l.records.length := by rwa [laid.records_eq, List.length_map]
  have start := getElem?_starts 0 l.records place
  rw [Nat.zero_add] at start
  have parts : l.records.flatten
      = (l.records.take i).flatten ++ (l.records[i] ++ (l.records.drop (i + 1)).flatten) := by
    rw [← List.flatten_cons, List.getElem_cons_drop, ← List.flatten_append, List.take_append_drop]
  have word : (l.records.take i).flatten.length < UInt32.size := by
    refine Nat.lt_of_le_of_lt ?_ laid.records_lt
    rw [parts, List.length_append]
    exact Nat.le_add_right ..
  have record : l.records[i] = rs[i].encode := by
    simp only [laid.records_eq, List.getElem_map]
  have located : Location.resolve rs[i] a.strings = .ok (d.locationOf i hi) := by
    have there := List.getElem?_eq_some_iff.1 (getElem?_locations 0 d.resources hi)
    obtain ⟨bound, same⟩ := there
    rw [Nat.zero_add] at same
    rw [locationOf, ← same]
    exact resolves.get _ _
  refine ⟨UInt32.ofNat (l.records.take i).flatten.length, ?_, ?_, ?_⟩
  · rw [laid.offsets_eq, List.getElem?_map, start]
    rfl
  · refine Archive.locationAt_eq (packed.records.trans (record ▸ parts)) ?_ located
    rw [UInt32.toNat_ofNat_of_lt' word]
  · rintro rfl
    rfl

end Draft

end ResourceArchive
