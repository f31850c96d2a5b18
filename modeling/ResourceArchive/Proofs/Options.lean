import ResourceArchive.Proofs.Regions
import ResourceArchive.Proofs.RoundTrip

/-! What options have no say in. Density and seeds decide where the tables keep a name, and the byte order
    how a word is written. Records, strings and contents come from the resources alone, and the tables of
    either container lead every name to the same record, so all answers are the same. Where only the byte
    orders differ, the layouts are one: builds fail alike, headers say the same, and each word of the
    tables is written backwards. -/

namespace ResourceArchive

/-! ### Words in the opposite order -/

/-- The four bytes of every word in reverse. Bytes past the last whole word stay as they are. -/
def reverseWords : Bytes → Bytes
  | a :: b :: c :: d :: rest => [a, b, c, d].reverse ++ reverseWords rest
  | rest => rest

theorem reverseWords_append {word : Bytes} (four : word.length = 4) (rest : Bytes) :
    reverseWords (word ++ rest) = word.reverse ++ reverseWords rest := by
  rcases word with _ | ⟨a, _ | ⟨b, _ | ⟨c, _ | ⟨d, _ | _⟩⟩⟩⟩
  all_goals cases four
  rfl

theorem ByteOrder.encode32_opposite (o : ByteOrder) (w : UInt32) :
    o.opposite.encode32 w = (o.encode32 w).reverse := by
  cases o with
  | little => rfl
  | big => exact (List.reverse_reverse _).symm

theorem reverseWords_zeros_append (n : Nat) (rest : Bytes) :
    reverseWords (List.replicate (4 * n) 0 ++ rest) = List.replicate (4 * n) 0 ++ reverseWords rest := by
  induction n with
  | zero => rfl
  | succ n ih =>
    have word : List.replicate (4 * (n + 1)) (0 : UInt8)
        = [0, 0, 0, 0] ++ List.replicate (4 * n) 0 := by
      rw [Nat.mul_succ, Nat.add_comm, List.replicate_add]
      rfl
    rw [word, List.append_assoc, reverseWords_append rfl, ih, List.append_assoc]
    rfl

namespace WordTable

theorem flatMap_runs_opposite (o : ByteOrder) (size i : Nat) (entries : List (Nat × UInt32)) :
    (runs o.opposite size i entries).flatMap Run.toBytes
      = reverseWords ((runs o size i entries).flatMap Run.toBytes) := by
  induction entries generalizing i with
  | nil => exact (reverseWords_zeros_append (size - i) []).symm
  | cons e rest ih =>
    obtain ⟨j, w⟩ := e
    simp only [runs, List.flatMap_cons, Run.toBytes, reverseWords_zeros_append,
      reverseWords_append (o.encode32_length w), o.encode32_opposite, ih]

/-- Of the same words two tables are made that differ in the order of the bytes of each word. -/
theorem toBytes_ofEntries_opposite (o : ByteOrder) (size : Nat) (entries : Std.TreeMap Nat UInt32) :
    (ofEntries o.opposite size entries).content.toBytes
      = reverseWords (ofEntries o size entries).content.toBytes := by
  rw [toBytes_ofEntries, toBytes_ofEntries, flatMap_runs_opposite]

end WordTable

namespace Draft

/-! ### Drafts with other options -/

/-- The same resources, to be built in another way. -/
def withOptions (d : Draft) (options : Options) : Draft := { d with options := options }

theorem eq_of_payloads {d d' : Draft} (options : d.options = d'.options)
    (payloads : d.payloads = d'.payloads) : d = d' := by
  cases d
  cases d'
  cases options
  cases payloads
  rfl

variable (d : Draft) (options : Options)

theorem tryAdd_withOptions (resource : Resource) :
    (d.withOptions options).tryAdd resource = (d.tryAdd resource).withOptions options := by
  refine eq_of_payloads (options_tryAdd ..) ?_
  rw [payloads_tryAdd]
  exact (payloads_tryAdd d resource).symm

/-- Options do not matter to calls. -/
theorem addAll_withOptions (calls : List Resource) :
    (d.withOptions options).addAll calls = (d.addAll calls).withOptions options := by
  induction calls generalizing d with
  | nil => rfl
  | cons resource calls ih =>
    rw [addAll, List.foldl_cons, ← addAll, tryAdd_withOptions, ih]
    rfl

/-! ### Layouts -/

variable {d options} {o o' : ByteOrder} {data data' : Bytes} {a a' : Archive} {l l' : Layout}
  {size size' : Nat} {rs rs' : List Record}

/-- The byte order does not matter to the layout. -/
theorem layout_withOrder (d : Draft) (order : ByteOrder) :
    (d.withOptions { d.options with order := order }).layout = d.layout :=
  rfl

/-- Records, strings and contents of a layout come from the resources. -/
theorem layout_withOptions (laid : d.layout = .ok l) (laid' : (d.withOptions options).layout = .ok l') :
    l.records = l'.records ∧ l.strings = l'.strings ∧ l.contents = l'.contents := by
  obtain ⟨_, _, rs, pool, -, -, made, -, -, rfl⟩ := layout_eq_ok laid
  obtain ⟨_, _, rs', pool', -, -, made', -, -, rfl⟩ := layout_eq_ok laid'
  obtain ⟨rfl, rfl⟩ := Prod.mk.inj (Except.ok.inj (made.symm.trans made'))
  exact ⟨rfl, rfl, rfl⟩

/-- The two tables stand behind the header. -/
theorem Laid.tablesIn (laid : d.Laid l size rs) (o : ByteOrder) :
    l.header.redirectsIn (l.toContent o).toBytes = (l.assignment.redirectTable o).content.toBytes
      ∧ l.header.offsetsIn (l.toContent o).toBytes
        = (l.assignment.offsetTable l.recordOffsets o).content.toBytes := by
  have table_size : l.header.tableSize = 4 * size := by rw [Header.tableSize, laid.sizes.1]
  have header_length : (l.header.encode o).length = l.header.redirectOffset := l.header.encode_length o
  have redirects_length : (l.assignment.redirectTable o).content.toBytes.length = l.header.tableSize := by
    rw [Content.toBytes_length, laid.perfect.redirectTable_length, table_size]
  have offsets_length : (l.assignment.offsetTable l.recordOffsets o).content.toBytes.length
      = l.header.tableSize := by
    rw [Content.toBytes_length, laid.perfect.offsetTable_length, table_size]
  rw [Header.redirectsIn, Header.offsetsIn, Header.offsetsOffset, Layout.toBytes_toContent,
    ← List.drop_drop, List.drop_left' header_length, List.drop_left' redirects_length,
    List.take_left' redirects_length, List.take_left' offsets_length]
  exact ⟨rfl, rfl⟩

theorem Laid.header_eq_of_packed (laid : d.Laid l size rs)
    (packed : d.Packed o (l.toContent o).toBytes a l) : a.header = l.header := by
  obtain ⟨magic, valid⟩ := laid.header_valid
  have parsed := packed.opened.parsed
  rw [Layout.toBytes_toContent, Header.parse_encode o _ magic valid] at parsed
  exact (Except.ok.inj parsed).symm

/-- The tables of a layout in one order are those in the other order with every word in reverse. -/
theorem Laid.tablesIn_opposite (laid : d.Laid l size rs) (o : ByteOrder) :
    l.header.redirectsIn (l.toContent o.opposite).toBytes
        = reverseWords (l.header.redirectsIn (l.toContent o).toBytes)
      ∧ l.header.offsetsIn (l.toContent o.opposite).toBytes
        = reverseWords (l.header.offsetsIn (l.toContent o).toBytes) := by
  obtain ⟨redirects, offsets⟩ := laid.tablesIn o
  obtain ⟨redirects', offsets'⟩ := laid.tablesIn o.opposite
  rw [redirects, offsets, redirects', offsets']
  exact ⟨WordTable.toBytes_ofEntries_opposite .., WordTable.toBytes_ofEntries_opposite ..⟩

/-! ### Answers -/

theorem Packed.regionsIn (packed : d.Packed o data a l) :
    a.header.recordsIn data = l.records.flatten ∧ a.header.stringsIn data = l.strings
      ∧ a.header.contentIn data = l.contents.flatMap Content.toBytes := by
  have marked := packed.opened.marked
  exact ⟨marked.records.symm.trans packed.records, marked.strings.symm.trans packed.strings,
    packed.contents⟩

/-- A resource of a draft is read as the bytes that it was given. -/
theorem Laid.bytesNamed_of_mem (laid : d.Laid l size rs) (packed : d.Packed o data a l)
    (word : data.length < UInt64.size) {r : Resource} (hr : r ∈ d.resources)
    (storable : r.2.isStorable) : a.bytesNamed data r.1 = .ok r.2.stored.toBytes := by
  obtain ⟨i, hi, rfl⟩ := List.mem_iff_getElem.1 hr
  obtain ⟨content, read, bytes⟩ := laid.readByName_held packed word hi storable
  rw [Archive.bytesNamed, read, ok_map, bytes]

section
variable (laid : d.Laid l size rs) (packed : d.Packed o data a l)
  (laid' : (d.withOptions options).Laid l' size' rs')
  (packed' : (d.withOptions options).Packed o' data' a' l')
include laid packed laid' packed'

/-- Whatever the tables are, a name is found where its resource is, or it is not found. -/
theorem find?_withOptions (name : String) : a.find? name = a'.find? name := by
  by_cases held : ∃ r ∈ d.resources, r.1 = name
  · obtain ⟨r, hr, rfl⟩ := held
    obtain ⟨i, hi, rfl⟩ := List.mem_iff_getElem.1 hr
    exact (laid.find?_held packed hi).trans (laid'.find?_held packed' hi).symm
  · have absent : ∀ r ∈ d.resources, r.1 ≠ name := fun r hr same => held ⟨r, hr, same⟩
    exact (laid.find?_absent packed absent).trans (laid'.find?_absent packed' absent).symm

theorem bytesNamed_withOptions (word : data.length < UInt64.size) (word' : data'.length < UInt64.size)
    (storable : ∀ r ∈ d.resources, r.2.isStorable) (name : String) :
    a.bytesNamed data name = a'.bytesNamed data' name := by
  by_cases held : ∃ r ∈ d.resources, r.1 = name
  · obtain ⟨r, hr, rfl⟩ := held
    rw [laid.bytesNamed_of_mem packed word hr (storable r hr),
      laid'.bytesNamed_of_mem packed' word' hr (storable r hr)]
  · have absent : ∀ r ∈ d.resources, r.1 ≠ name := fun r hr same => held ⟨r, hr, same⟩
    rw [Archive.bytesNamed_absent (laid.find?_absent packed absent),
      Archive.bytesNamed_absent (laid'.find?_absent packed' absent)]

end

/-- Two containers of the same resources say the same, whatever options they were built with. With the
    byte orders alone different they are built or fail alike, with the same header, and have each
    other's tables with every word in reverse; and no container is opened in the order that is not its
    own. Contents can be read where the length of a container is a 64-bit word, as that of every byte
    string in memory is. -/
theorem options_say_the_same (options options' : Options) (calls : List Resource) :
    (∀ data data', (addAll { options := options } calls).toBytes = .ok data →
        (addAll { options := options' } calls).toBytes = .ok data' →
        ∃ a a', Archive.ofBytes options.order data = .ok a
          ∧ Archive.ofBytes options'.order data' = .ok a'
          ∧ a.header.recordsIn data = a'.header.recordsIn data'
          ∧ a.header.stringsIn data = a'.header.stringsIn data'
          ∧ a.header.contentIn data = a'.header.contentIn data'
          ∧ (∀ name, a.find? name = a'.find? name)
          ∧ (∀ module path, a.findInModule? module path = a'.findInModule? module path)
          ∧ a.entryNames = a'.entryNames ∧ a.moduleNames = a'.moduleNames
          ∧ (data.length < UInt64.size → data'.length < UInt64.size →
              (∀ name, a.bytesNamed data name = a'.bytesNamed data' name) ∧ a.verify = a'.verify)
          ∧ (options' = { options with order := options.order.opposite } →
              a.header = a'.header
              ∧ a'.header.redirectsIn data' = reverseWords (a.header.redirectsIn data)
              ∧ a'.header.offsetsIn data' = reverseWords (a.header.offsetsIn data)))
    ∧ (options' = { options with order := options.order.opposite } →
        ∀ e, (addAll { options := options } calls).toBytes = .error e
          ↔ (addAll { options := options' } calls).toBytes = .error e)
    ∧ ∀ data, (addAll { options := options } calls).toBytes = .ok data →
        Archive.ofBytes options.order.opposite data = .error .wrongByteOrder := by
  have order : (addAll { options := options } calls).options = options := options_addAll ..
  have storable : ∀ r ∈ (addAll { options := options } calls).resources, r.2.isStorable :=
    storable_of_mem_addAll rfl
  have other : addAll { options := options' } calls
      = (addAll { options := options } calls).withOptions options' :=
    addAll_withOptions { options := options } options' calls
  rw [other]
  generalize addAll { options := options } calls = d at *
  subst order
  refine ⟨?_, ?_, ?_⟩
  · intro data data' built built'
    obtain ⟨l, layout, rfl⟩ := toBytes_eq_ok.1 built
    obtain ⟨l', layout', rfl⟩ := toBytes_eq_ok.1 built'
    obtain ⟨a, size, rs, laid, packed⟩ := packed_of_layout layout
    obtain ⟨a', size', rs', laid', packed'⟩ := packed_of_layout layout'
    obtain ⟨records, strings, contents⟩ := layout_withOptions layout layout'
    obtain ⟨recordsIn, stringsIn, contentIn⟩ := packed.regionsIn
    obtain ⟨recordsIn', stringsIn', contentIn'⟩ := packed'.regionsIn
    have same : a.SameRecords a' := {
      count := packed.count.trans packed'.count.symm
      records := by rw [packed.records, packed'.records, records]
      strings := by rw [packed.strings, packed'.strings, strings] }
    have find := find?_withOptions laid packed laid' packed'
    refine ⟨a, a', Archive.ofBytes_eq_ok.2 packed.opened, Archive.ofBytes_eq_ok.2 packed'.opened,
      ?_, ?_, ?_, find, fun module path => find _, same.entryNames_eq, same.moduleNames_eq, ?_, ?_⟩
    · rw [recordsIn, recordsIn', records]
    · rw [stringsIn, stringsIn', strings]
    · rw [contentIn, contentIn', contents]
    · intro word word'
      refine ⟨bytesNamed_withOptions laid packed laid' packed' word word' storable, ?_⟩
      rw [laid.verify_eq packed word storable, laid'.verify_eq packed' word' storable]
      rfl
    · rintro rfl
      -- There is one layout, which is written in both orders.
      rw [layout_withOrder, layout] at layout'
      obtain rfl : l = l' := Except.ok.inj layout'
      rw [laid.header_eq_of_packed packed, laid'.header_eq_of_packed packed']
      exact ⟨rfl, laid.tablesIn_opposite d.options.order⟩
  · rintro rfl e
    rw [toBytes_eq_error, toBytes_eq_error, layout_withOrder]
  · intro data built
    obtain ⟨a, l, size, rs, laid, packed⟩ := packed_of_toBytes built
    exact Archive.ofBytes_of_parse_error (Header.parse_opposite packed.opened.parsed)

/-- The container of `fourCalls` in both orders. -/
theorem options_say_the_same_fourCalls : ∃ data data' a a',
    (addAll {} fourCalls).toBytes = .ok data
    ∧ (addAll { options := { order := .big } } fourCalls).toBytes = .ok data'
    ∧ Archive.ofBytes .little data = .ok a ∧ Archive.ofBytes .big data' = .ok a'
    ∧ a'.header.redirectsIn data' = reverseWords (a.header.redirectsIn data)
    ∧ a.bytesNamed data "a" = a'.bytesNamed data' "a"
    ∧ Archive.ofBytes .big data = .error .wrongByteOrder := by
  have short : (addAll {} fourCalls).toBytes.toOption.any (·.length < UInt64.size)
      ∧ (addAll { options := { order := .big } } fourCalls).toBytes.toOption.any
        (·.length < UInt64.size) := by
    decide +kernel
  obtain ⟨same, alike, apart⟩ := options_say_the_same {} { order := .big } fourCalls
  have alike := alike rfl
  rcases built : (addAll {} fourCalls).toBytes with e | data
  · rw [built] at short
    cases short.1
  rcases built' : (addAll { options := { order := .big } } fourCalls).toBytes with e | data'
  · rw [(alike e).2 built'] at built
    cases built
  rw [built, built'] at short
  obtain ⟨word, word'⟩ := short
  obtain ⟨a, a', opened, opened', -, -, -, -, -, -, -, read, tables⟩ := same data data' built built'
  obtain ⟨-, redirects, -⟩ := tables rfl
  have read := (read (of_decide_eq_true word) (of_decide_eq_true word')).1 "a"
  exact ⟨data, data', a, a', rfl, rfl, opened, opened', redirects, read, apart data built⟩

end Draft

end ResourceArchive
