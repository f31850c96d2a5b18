import ResourceArchive.Proofs.Bounds
import ResourceArchive.Proofs.Destination
import ResourceArchive.Proofs.Interning
import ResourceArchive.Proofs.Truncation

/-! What a container that was built is made of. Its regions are as large as its header says and follow one
    another to its last byte; records and contents stand in the order of the names without a gap, and
    the entries of the offset table are the places where records begin. -/

namespace ResourceArchive

/-- The range of the contents that a location gives: where it begins, and its size. -/
def Location.range (l : Location) : Nat × Nat := (l.contentOffset.toNat, l.storedSize.toNat)

/-- No entry stands past the last slot. -/
theorem Assignment.Perfect.lt_of_offsetTable {a : Assignment} {names : List Bytes} {size slot : Nat}
    {offsets : List UInt32} {o : ByteOrder} {w : UInt32} (h : a.Perfect names size)
    (entry : (a.offsetTable offsets o).get? slot = some w) : slot < size := by
  have inside : ∀ i ∈ a.filled offsets, i < a.size := fun i hi =>
    h.size_eq ▸ h.slot_lt (mem_slots_of_mem_filled hi)
  refine Nat.lt_of_not_le ?_
  intro past
  rw [offsetTable, WordTable.get?_ofEntries _ _ _ inside, if_neg (by rw [h.size_eq]; omega)] at entry
  cases entry

namespace Draft

/-- The strings that a resource puts into the pool. -/
def nameStrings (resource : Resource) : List String :=
  let parts := NameParts.ofChars resource.1.toList
  [parts.module, parts.parent, parts.base, parts.extension]

/-- Where the record at a place begins, if records follow one another. -/
def recordStart (rs : List Record) (i : Nat) : Nat := ((rs.take i).map Record.encode).flatten.length

variable {d : Draft} {o : ByteOrder} {data : Bytes} {a : Archive} {l : Layout} {size : Nat}
  {rs : List Record} {pool q : Interner} {start offset : Nat}

/-! ### Strings -/

/-- The pool is what the calls with the parts of the name leave of it. -/
theorem record_pool {resource : Resource} {r : Record}
    (made : record pool offset resource = .ok (r, q)) : q = pool.addAll (nameStrings resource) := by
  obtain ⟨name, payload⟩ := resource
  obtain ⟨parts, named, made⟩ := bind_eq_ok.1 made
  obtain ⟨⟨_, p₁⟩, added₁, made⟩ := bind_eq_ok.1 made
  obtain ⟨⟨_, p₂⟩, added₂, made⟩ := bind_eq_ok.1 made
  obtain ⟨⟨_, p₃⟩, added₃, made⟩ := bind_eq_ok.1 made
  obtain ⟨⟨_, p₄⟩, added₄, made⟩ := bind_eq_ok.1 made
  cases made
  rw [nameStrings, ← NameParts.eq_ofChars_of_split named]
  simp only [Interner.addAll, List.foldl_cons, List.foldl_nil, Interner.tryAdd_of_add added₁,
    Interner.tryAdd_of_add added₂, Interner.tryAdd_of_add added₃, Interner.tryAdd_of_add added₄]

theorem records_pool {resources : List Resource}
    (made : records pool start offset resources = .ok (rs, q)) :
    q = pool.addAll (resources.flatMap nameStrings) := by
  induction resources generalizing pool start offset rs with
  | nil =>
    cases made
    rfl
  | cons resource rest ih =>
    obtain ⟨⟨r, p⟩, first, made⟩ := bind_eq_ok.1 made
    dsimp only at made
    split at made
    · cases made
    obtain ⟨⟨rs', q'⟩, others, made⟩ := bind_eq_ok.1 made
    cases made
    rw [List.flatMap_cons, Interner.addAll_append, ← record_pool first]
    exact ih others

theorem strings_of_layout (layout : d.layout = .ok l) :
    l.strings = (Interner.addAll {} (d.resources.flatMap nameStrings)).bytes := by
  obtain ⟨_, _, rs, pool, -, -, made, -, -, rfl⟩ := layout_eq_ok layout
  exact congrArg Interner.bytes (records_pool made)

/-! ### Records -/

theorem recordStart_lt (laid : d.Laid l size rs) (i : Nat) : recordStart rs i < UInt32.size := by
  have parts := congrArg (List.flatMap Record.encode) (List.take_append_drop i rs)
  rw [List.flatMap_append] at parts
  refine Nat.lt_of_le_of_lt ?_ laid.records_lt
  rw [laid.records_eq, recordStart, ← List.flatMap_def, ← List.flatMap_def, ← parts, List.length_append]
  exact Nat.le_add_right ..

theorem Laid.count (laid : d.Laid l size rs) : rs.length = d.resources.length := by
  rw [laid.locates.length_eq, locations_length]

/-- The offset of a record is where it begins. -/
theorem Laid.getElem?_recordOffsets (laid : d.Laid l size rs) {i : Nat} (hi : i < rs.length) :
    ∃ w, l.recordOffsets[i]? = some w ∧ w.toNat = recordStart rs i := by
  have place : i < l.records.length := by rwa [laid.records_eq, List.length_map]
  refine ⟨UInt32.ofNat (recordStart rs i), ?_, UInt32.toNat_ofNat_of_lt' (recordStart_lt laid i)⟩
  rw [laid.offsets_eq, List.getElem?_map, getElem?_starts 0 _ place, laid.records_eq, Nat.zero_add,
    ← List.map_take]
  rfl

/-- A container with slots has records, of which the first begins at 0. -/
theorem Laid.some_of_slot (laid : d.Laid l size rs) {slot : Nat} (inside : slot < size) : 0 < rs.length := by
  rw [laid.count, resources_length]
  refine Nat.pos_of_ne_zero ?_
  intro none
  have buckets := laid.buckets
  rw [none, Options.bucketCount, if_pos rfl] at buckets
  cases buckets
  exact Nat.not_lt_zero _ inside

/-- Every entry of the offset table is where a record begins. That of a slot without a name is 0, where the
    first record begins. -/
theorem Laid.starts_of_mem (laid : d.Laid l size rs) {w : UInt32}
    (hw : w ∈ o.words (l.assignment.offsetTable l.recordOffsets o).content.toBytes) :
    ∃ i < rs.length, w.toNat = recordStart rs i := by
  obtain ⟨slot, hw⟩ := List.mem_iff_getElem?.1 hw
  have hw : (l.assignment.offsetTable l.recordOffsets o).get? slot = some w := by
    rw [WordTable.get?_eq]
    exact hw
  have inside := laid.perfect.lt_of_offsetTable hw
  rw [laid.perfect.getElem?_offsetTable o inside] at hw
  obtain rfl := Option.some.inj hw
  by_cases used : slot ∈ l.assignment.slots
  · obtain ⟨i, given⟩ := Array.mem_iff_getElem?.1 used
    have hi : i < rs.length := by
      have hi := (Array.getElem?_eq_some_iff.1 given).1
      rwa [laid.perfect.size_slots, List.length_map, ← laid.count] at hi
    obtain ⟨w, offset, there⟩ := laid.getElem?_recordOffsets hi
    rw [laid.perfect.filled_given given offset]
    exact ⟨i, hi, there⟩
  · rw [Std.TreeMap.getElem?_eq_none fun filled => used (Assignment.mem_slots_of_mem_filled filled)]
    exact ⟨0, laid.some_of_slot inside, rfl⟩

/-- Every record begins where an entry of the offset table says. -/
theorem Laid.mem_of_start (laid : d.Laid l size rs) {i : Nat} (hi : i < rs.length) :
    ∃ w ∈ o.words (l.assignment.offsetTable l.recordOffsets o).content.toBytes,
      w.toNat = recordStart rs i := by
  have named : i < (d.resources.map fun r => utf8 r.1).length := by rwa [List.length_map, ← laid.count]
  obtain ⟨slot, inside, resolves⟩ := laid.perfect.given named
  obtain ⟨w, offset, there⟩ := laid.getElem?_recordOffsets hi
  have entry : (l.assignment.offsetTable l.recordOffsets o).get? slot = some _ :=
    laid.perfect.getElem?_offsetTable o inside
  rw [WordTable.get?_eq, laid.perfect.filled_given resolves.given offset] at entry
  exact ⟨w, List.mem_of_getElem? entry, there⟩

/-! ### Contents -/

/-- The ranges of resources follow one another, each as long as what is stored. -/
theorem adjacent_locations {resources : List Resource} (storable : ∀ r ∈ resources, r.2.isStorable)
    {stop : Nat} (ends : stop = offset + (resources.map fun r => r.2.stored.length).sum)
    (word : stop < UInt64.size) :
    Adjacent offset ((locations offset resources).map Location.range) stop := by
  induction resources generalizing offset with
  | nil => exact ends.symm
  | cons r rest ih =>
    rw [List.map_cons, List.sum_cons] at ends
    have stored : (location offset r).storedSize.toNat = r.2.stored.length :=
      storedSize_location (storable r (.head _)) (by omega)
    have first : (location offset r).contentOffset.toNat = offset := UInt64.toNat_ofNat_of_lt' (by omega)
    rw [locations, List.map_cons, Location.range, first, stored]
    exact ⟨rfl, ih (fun r hr => storable r (.tail _ hr)) (ends.trans (by omega))⟩

/-- The contents fill what follows the index. -/
theorem Laid.length_eq_sum (laid : d.Laid l size rs) (packed : d.Packed o data a l) :
    data.length = a.indexSize + (d.resources.map fun r => r.2.stored.length).sum := by
  have sum : contentBefore d.resources d.resources.length
      = (d.resources.map fun r => r.2.stored.length).sum := by
    rw [contentBefore, List.take_length, List.length_flatMap]
    simp only [Content.toBytes_length]
  rw [laid.length_eq packed, sum]

/-! ### The whole container -/

/-- What the bytes of a container are, given the resources that it holds in the order of their names, the
    records and what these say. -/
structure Tiled (o : ByteOrder) (data : Bytes) (a : Archive) (resources : List Resource)
    (rs : List Record) (ls : List Location) : Prop where
  /-- Header, tables, records, strings and contents follow one another, and nothing else is there. -/
  bytes_eq : data = a.header.encode o ++ (a.header.redirectsIn data ++ (a.header.offsetsIn data
    ++ ((rs.map Record.encode).flatten ++ ((Interner.addAll {} (resources.flatMap nameStrings)).bytes
    ++ resources.flatMap fun r => r.2.stored.toBytes))))
  count : a.header.resourceCount.toNat = rs.length
  redirects_length : (a.header.redirectsIn data).length = 4 * a.header.bucketCount.toNat
  offsets_length : (a.header.offsetsIn data).length = 4 * a.header.bucketCount.toNat
  records_length : (rs.map Record.encode).flatten.length = a.header.locationsSize.toNat
  strings_length : (Interner.addAll {} (resources.flatMap nameStrings)).bytes.length
    = a.header.stringsSize.toNat
  length_eq : data.length = a.indexSize + (resources.map fun r => r.2.stored.length).sum
  resolves : List.Forall₂ (fun r l => Location.resolve r a.strings = .ok l) rs ls
  names : ls.map Location.fullName = resources.map (·.1)
  /-- The entries of the offset table are where records begin. -/
  starts : ∀ w ∈ o.words (a.header.offsetsIn data), ∃ i < rs.length, w.toNat = recordStart rs i
  entries : ∀ i < rs.length, ∃ w ∈ o.words (a.header.offsetsIn data), w.toNat = recordStart rs i
  /-- The contents follow one another from the end of the index to the end of the container, where its
      length is a 64-bit word, as that of every byte string in memory is. -/
  ranges : data.length < UInt64.size → Adjacent 0 (ls.map Location.range) (data.length - a.indexSize)

theorem Laid.tiled (laid : d.Laid l size rs) (packed : d.Packed o (l.toContent o).toBytes a l)
    (strings : l.strings = (Interner.addAll {} (d.resources.flatMap nameStrings)).bytes)
    (storable : ∀ r ∈ d.resources, r.2.isStorable) :
    Tiled o (l.toContent o).toBytes a d.resources rs (locations 0 d.resources) := by
  have length := laid.length_eq_sum packed
  have resolves := laid.resolves packed
  obtain ⟨buckets, count, records_size, strings_size⟩ := laid.sizes
  obtain ⟨redirects, offsets⟩ := laid.tablesIn o
  have redirects_length := laid.perfect.redirectTable_length o
  have offsets_length := laid.perfect.offsetTable_length l.recordOffsets o
  rw [← Content.toBytes_length] at redirects_length offsets_length
  have whole := l.toBytes_toContent o
  rw [laid.contents_eq, List.flatMap_map] at whole
  rw [← laid.header_eq_of_packed packed] at buckets count records_size strings_size redirects offsets whole
  exact {
    bytes_eq := by rw [redirects, offsets, ← laid.records_eq, ← strings, ← whole]
    count := by rw [count, laid.count, resources_length]
    redirects_length := by rw [redirects, redirects_length, buckets]
    offsets_length := by rw [offsets, offsets_length, buckets]
    records_length := by rw [records_size, laid.records_eq]
    strings_length := by rw [strings_size, strings]
    length_eq := length
    resolves := resolves
    names := fullNames_locations 0 fun r => split_of_mem
    starts := fun w hw => laid.starts_of_mem (offsets ▸ hw)
    entries := fun i hi => offsets ▸ laid.mem_of_start hi
    ranges := fun word => adjacent_locations storable (by omega) (by omega) }

/-- A container that was built is its header, its two tables, the records, the strings and the contents, as
    long as the header says, and nothing else; records and contents are those of the held resources, in
    the order of the names and without a gap, and each entry of the offset table is where a record begins.
    The size that is reported on writing is that of the container. -/
theorem toBytes_tiled {options : Options} {calls : List Resource} {data : Bytes}
    (built : (addAll { options := options } calls).toBytes = .ok data) :
    ∃ resources a rs ls, resources.Pairwise (fun r s => utf8 r.1 < utf8 s.1)
      ∧ (∀ name payload, (name, payload) ∈ resources ↔ firstGiven calls name = some payload)
      ∧ Archive.ofBytes options.order data = .ok a
      ∧ Tiled options.order data a resources rs ls
      ∧ ∀ s : Sink, data.length ≤ s.room →
          ((addAll { options := options } calls).writeTo s).1 = .ok data.length := by
  have held (name : String) :
      (addAll { options := options } calls).payloads[name]? = firstGiven calls name :=
    getElem?_addAll_of_empty calls name rfl
  have storable : ∀ r ∈ (addAll { options := options } calls).resources, r.2.isStorable :=
    storable_of_mem_addAll rfl
  have order : (addAll { options := options } calls).options = options := options_addAll ..
  generalize addAll { options := options } calls = d at *
  subst order
  obtain ⟨l, layout, rfl⟩ := toBytes_eq_ok.1 built
  obtain ⟨a, size, rs, laid, packed⟩ := packed_of_layout layout
  refine ⟨d.resources, a, rs, locations 0 d.resources, resources_ascending, ?_,
    Archive.ofBytes_eq_ok.2 packed.opened, laid.tiled packed (strings_of_layout layout) storable, ?_⟩
  · intro name payload
    rw [mem_resources, held]
  · intro s room
    rw [(writeTo_of_layout layout s).1, if_pos room]

/-- The container of `fourCalls` holds a compressed content and one that is not. -/
theorem toBytes_tiled_fourCalls : ∃ data resources a rs ls, (addAll {} fourCalls).toBytes = .ok data
    ∧ Archive.ofBytes .little data = .ok a
    ∧ ("a", .compressed (.ofBytes [9]) 5) ∈ resources
    ∧ ("/m/p/b.x", .plain (.ofBytes [1, 2, 3])) ∈ resources
    ∧ Tiled .little data a resources rs ls
    ∧ Adjacent 0 (ls.map Location.range) (data.length - a.indexSize)
    ∧ ((addAll {} fourCalls).writeTo { room := data.length }).1 = .ok data.length := by
  have short : (addAll {} fourCalls).toBytes.toOption.any (·.length < UInt64.size) := by
    decide +kernel
  rcases built : (addAll {} fourCalls).toBytes with e | data
  · rw [built] at short
    cases short
  · rw [built] at short
    obtain ⟨resources, a, rs, ls, -, held, opened, tiled, written⟩ := toBytes_tiled built
    exact ⟨data, resources, a, rs, ls, rfl, opened, (held ..).2 (by decide), (held ..).2 (by decide), tiled,
      tiled.ranges (of_decide_eq_true short), written _ (Nat.le_refl _)⟩

end Draft

end ResourceArchive
