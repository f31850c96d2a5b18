import ResourceArchive.Proofs.Packed

/-! The round trip. A container that was built from a draft can be opened, and then every name that the
    draft holds is found and its bytes are read, every other name is found missing, and the list of names
    and the count of resources are those of the draft. -/

namespace ResourceArchive

/-- Steps over values that are there, none of which fails, are a plain fold. -/
theorem foldlM_map_ok {σ α : Type} (use : σ → α → Except Error σ) (step : σ → α → σ)
    (items : List α) (succeeds : ∀ state, ∀ item ∈ items, use state item = .ok (step state item))
    (state : σ) :
    (items.map Except.ok).foldlM (fun state item => item.bind (use state)) state
      = .ok (items.foldl step state) := by
  induction items generalizing state with
  | nil => rfl
  | cons item items ih =>
    rw [List.map_cons, List.foldlM_cons, List.foldl_cons, Except.bind,
      succeeds state item (.head _), ok_bind]
    exact ih (fun state item h => succeeds state item (.tail _ h)) _

/-- Verifying counts the resources if all of them pass. -/
theorem Archive.verify_eq_ok {a : Archive} {ls : List Location} (listed : a.locations = ls.map .ok)
    (pass : ∀ m ∈ ls, a.check m = .ok ()) : a.verify = .ok ls.length := by
  have passes : ∀ count : Nat, ∀ m ∈ ls, ((a.check m).map fun _ => count + 1) = .ok (count + 1) := by
    intro count m hm
    rw [pass m hm]
    rfl
  rw [verify, fold_eq, listed, foldlM_map_ok _ (fun count _ => count + 1) _ passes,
    List.foldl_add_const]
  simp

theorem Archive.entryNames_eq_ok {a : Archive} {ls : List Location} (listed : a.locations = ls.map .ok) :
    a.entryNames = .ok (ls.map Location.fullName) := by
  have names := foldlM_map_ok (fun (names : List String) l => .ok (l.fullName :: names))
    (fun names l => l.fullName :: names) ls (fun _ _ _ => rfl) []
  rw [entryNames, fold_eq, listed, names, List.foldl_flip_cons_eq_append, List.append_nil]
  exact congrArg Except.ok (List.reverse_reverse _)

namespace Draft

variable {d : Draft} {o : ByteOrder} {data : Bytes} {a : Archive} {l : Layout} {size : Nat}
  {rs : List Record} {i : Nat}

/-! ### Finding -/

theorem split_of_mem {resource : Resource} (h : resource ∈ d.resources) :
    NameParts.split resource.1 = .ok (.ofChars resource.1.toList) := by
  have held : resource.1 ∈ d.payloads := by
    rw [Std.TreeMap.mem_iff_isSome_getElem?, mem_resources.1 h]
    rfl
  obtain ⟨parts, named⟩ := d.storable _ held
  rw [named, NameParts.eq_ofChars_of_split named]

theorem split_locationOf (hi : i < d.resources.length) :
    NameParts.split d.resources[i].1 = .ok (d.locationOf i hi).name :=
  split_of_mem (List.getElem_mem hi)

theorem fullName_locationOf (hi : i < d.resources.length) :
    (d.locationOf i hi).fullName = d.resources[i].1 :=
  NameParts.fullName_of_split (split_locationOf hi)

/-- A name that the draft holds leads to its own record. -/
theorem Laid.find?_held (laid : d.Laid l size rs) (packed : d.Packed o data a l)
    (hi : i < d.resources.length) :
    a.find? d.resources[i].1 = .ok (some (d.locationOf i hi)) := by
  obtain ⟨offset, given, there, -⟩ := laid.locationAt packed hi
  have place : i < (d.resources.map fun r => utf8 r.1).length := by rwa [List.length_map]
  have led := laid.perfect.candidateOffset_given packed.tables place given
  rw [List.getElem_map] at led
  exact Archive.find?_eq_some.2 ⟨offset, led, there, fullName_locationOf hi⟩

/-- The tables of a draft without resources lead nowhere. -/
theorem Laid.candidateOffset_empty (laid : d.Laid l size rs) (packed : d.Packed o data a l)
    (empty : d.size = 0) (name : Bytes) : a.tables.candidateOffset name = .ok none := by
  have buckets := laid.buckets
  rw [empty, Options.bucketCount, if_pos rfl] at buckets
  obtain rfl : 0 = size := Except.ok.inj buckets
  have none : a.tables.size = 0 := packed.tables.size_eq.trans laid.perfect.size_eq
  rw [Tables.candidateOffset, Tables.candidateSlot, if_pos none]
  rfl

/-- Whatever the name, the tables lead nowhere or to the record of a resource. An empty slot has the
    offset of the first record. -/
theorem Laid.candidateOffset_any (laid : d.Laid l size rs) (packed : d.Packed o data a l)
    (name : Bytes) : a.tables.candidateOffset name = .ok none
      ∨ ∃ offset, a.tables.candidateOffset name = .ok (some offset)
        ∧ ∃ i hi, a.locationAt offset = .ok (d.locationOf i hi) := by
  have count : l.recordOffsets.length = d.resources.length := by
    rw [laid.offsets_eq, List.length_map, starts_length, laid.records_eq, List.length_map,
      laid.locates.length_eq, locations_length]
  obtain ⟨found, led, given⟩ := laid.perfect.candidateOffset_any packed.tables
    (by rw [count, List.length_map]) name
  rcases found with _ | offset
  · exact .inl led
  rcases given offset rfl with used | rfl
  · obtain ⟨i, hi, rfl⟩ := List.mem_iff_getElem.1 used
    have place : i < d.resources.length := count ▸ hi
    obtain ⟨offset, given, there, -⟩ := laid.locationAt packed place
    rw [List.getElem?_eq_getElem hi] at given
    exact .inr ⟨_, led, i, place, Option.some.inj given ▸ there⟩
  · rcases Nat.eq_zero_or_pos d.size with empty | some
    · exact .inl (laid.candidateOffset_empty packed empty name)
    · have place : 0 < d.resources.length := resources_length.symm ▸ some
      obtain ⟨offset, -, there, first⟩ := laid.locationAt packed place
      exact .inr ⟨0, led, 0, place, first rfl ▸ there⟩

/-- A name that the draft has not may lead to a record, but then to that of another name. -/
theorem Laid.find?_absent (laid : d.Laid l size rs) (packed : d.Packed o data a l) {name : String}
    (absent : ∀ r ∈ d.resources, r.1 ≠ name) : a.find? name = .ok none := by
  rcases laid.candidateOffset_any packed (utf8 name) with led | ⟨offset, led, i, hi, there⟩
  · rw [Archive.find?, led]
    rfl
  · have refused : ¬(d.locationOf i hi).name.accepts (utf8 name) := fun accepted =>
      absent _ (List.getElem_mem hi)
        ((fullName_locationOf hi).symm.trans (utf8_inj.1 (NameParts.accepts_iff.1 accepted)))
    simp only [Archive.find?, led, ok_bind, there, refused]
    rfl

/-! ### Reading -/

/-- The stored size of a location is that of the content. An empty compressed content would have the
    size of what it was before. -/
theorem storedSize_location {offset : Nat} {resource : Resource} (storable : resource.2.isStorable)
    (short : resource.2.stored.length < UInt64.size) :
    (location offset resource).storedSize.toNat = resource.2.stored.length := by
  obtain ⟨name, payload⟩ := resource
  cases payload with
  | plain content => exact UInt64.toNat_ofNat_of_lt' short
  | compressed content before =>
    have word : (UInt64.ofNat content.length).toNat = content.length :=
      UInt64.toNat_ofNat_of_lt' short
    have some : (location offset (name, .compressed content before)).isCompressed := by
      refine bne_iff_ne.2 fun none => bne_iff_ne.1 storable ?_
      rw [← word, show UInt64.ofNat content.length = 0 from none]
      rfl
    rw [Location.storedSize, if_pos some]
    exact word

/-- The contents follow the index one after another. -/
theorem Laid.contents_eq_append (laid : d.Laid l size rs) (packed : d.Packed o data a l)
    (hi : i < d.resources.length) : ∃ before after : Bytes,
      data.drop a.indexSize = before ++ (d.resources[i].2.stored.toBytes ++ after)
        ∧ before.length = contentBefore d.resources i := by
  refine ⟨(d.resources.take i).flatMap fun r => r.2.stored.toBytes,
    (d.resources.drop (i + 1)).flatMap fun r => r.2.stored.toBytes, ?_, rfl⟩
  have parts : d.resources = d.resources.take i ++ d.resources[i] :: d.resources.drop (i + 1) := by
    rw [List.getElem_cons_drop, List.take_append_drop]
  calc data.drop a.indexSize
      = d.resources.flatMap fun r => r.2.stored.toBytes := by
        rw [packed.contents, laid.contents_eq, List.flatMap_map]
    _ = (d.resources.take i ++ d.resources[i] :: d.resources.drop (i + 1)).flatMap
          fun r => r.2.stored.toBytes := congrArg _ parts
    _ = _ := by rw [List.flatMap_append, List.flatMap_cons]

/-- The content of a resource stands in the container where its location says, if the length of the
    container is a 64-bit word. -/
theorem Laid.content_at (laid : d.Laid l size rs) (packed : d.Packed o data a l)
    (word : data.length < UInt64.size) (hi : i < d.resources.length)
    (storable : d.resources[i].2.isStorable) :
    a.indexSize + (d.locationOf i hi).contentOffset.toNat + (d.locationOf i hi).storedSize.toNat
        ≤ data.length
      ∧ (data.drop (a.indexSize + (d.locationOf i hi).contentOffset.toNat)).take
          (d.locationOf i hi).storedSize.toNat = d.resources[i].2.stored.toBytes := by
  obtain ⟨before, after, contents, place⟩ := laid.contents_eq_append packed hi
  have indexed := packed.opened.indexed
  have inside := congrArg List.length contents
  rw [List.length_drop, List.length_append, List.length_append, Content.toBytes_length, place]
    at inside
  have offset : (d.locationOf i hi).contentOffset.toNat = contentBefore d.resources i :=
    UInt64.toNat_ofNat_of_lt' (by omega)
  have stored : (d.locationOf i hi).storedSize.toNat = d.resources[i].2.stored.length :=
    storedSize_location storable (by omega)
  rw [offset, stored]
  refine ⟨by omega, ?_⟩
  rw [← List.drop_drop, contents, ← place, List.drop_left, ← Content.toBytes_length, List.take_left]

/-- A name that the draft holds is read as the bytes that it was given. -/
theorem Laid.readByName_held (laid : d.Laid l size rs) (packed : d.Packed o data a l)
    (word : data.length < UInt64.size) (hi : i < d.resources.length)
    (storable : d.resources[i].2.isStorable) :
    ∃ content, a.readByName (.ofBytes data) d.resources[i].1 = .ok content
      ∧ content.toBytes = d.resources[i].2.stored.toBytes := by
  obtain ⟨inside, bytes⟩ := laid.content_at packed word hi storable
  rw [Archive.readByName_eq (laid.find?_held packed hi), ← bytes]
  exact packed.opened.readContent_inside inside (Nat.lt_of_le_of_lt inside word)

/-! ### Listing -/

theorem fullNames_locations (offset : Nat) {resources : List Resource}
    (named : ∀ r ∈ resources, NameParts.split r.1 = .ok (.ofChars r.1.toList)) :
    (locations offset resources).map Location.fullName = resources.map (·.1) := by
  induction resources generalizing offset with
  | nil => rfl
  | cons resource rest ih =>
    rw [locations, List.map_cons, List.map_cons, ih _ fun r hr => named r (.tail _ hr)]
    exact congrArg (· :: _) (NameParts.fullName_of_split (named resource (.head _)))

theorem Laid.entryNames_eq (laid : d.Laid l size rs) (packed : d.Packed o data a l) :
    a.entryNames = .ok (d.resources.map (·.1)) := by
  rw [Archive.entryNames_eq_ok (laid.locations_eq packed), fullNames_locations 0 fun r => split_of_mem]

/-- Every listed resource is found again, and its content is there. -/
theorem Laid.check_listed (laid : d.Laid l size rs) (packed : d.Packed o data a l)
    (word : data.length < UInt64.size) (hi : i < d.resources.length)
    (storable : d.resources[i].2.isStorable) : a.check (d.locationOf i hi) = .ok () := by
  obtain ⟨inside, -⟩ := laid.content_at packed word hi storable
  have held : a.holds (d.locationOf i hi).contentOffset (d.locationOf i hi).storedSize :=
    Archive.holds_iff.2 ⟨packed.opened.length_eq ▸ inside, Nat.lt_of_le_of_lt inside word⟩
  have found := laid.find?_held packed hi
  rw [← fullName_locationOf hi] at found
  exact Archive.check_of_find? found held

theorem Laid.verify_eq (laid : d.Laid l size rs) (packed : d.Packed o data a l)
    (word : data.length < UInt64.size) (storable : ∀ r ∈ d.resources, r.2.isStorable) :
    a.verify = .ok d.size := by
  have passes : ∀ m ∈ locations 0 d.resources, a.check m = .ok () := by
    intro m hm
    obtain ⟨i, hi, rfl⟩ := exists_locationOf hm
    exact laid.check_listed packed word hi (storable _ (List.getElem_mem hi))
  rw [Archive.verify_eq_ok (laid.locations_eq packed) passes, locations_length, resources_length]

/-! ### From calls to reads -/

theorem toBytes_eq (d : Draft) :
    d.toBytes = d.layout >>= fun l => .ok (l.toContent d.options.order).toBytes := by
  rw [toBytes, toContent]
  rcases d.layout with e | l <;> rfl

theorem toBytes_eq_ok :
    d.toBytes = .ok data ↔ ∃ l, d.layout = .ok l ∧ (l.toContent d.options.order).toBytes = data := by
  simp only [toBytes_eq, bind_eq_ok, Except.ok.injEq]

/-- Nothing but the layout fails. -/
theorem toBytes_eq_error {e : Error} : d.toBytes = .error e ↔ d.layout = .error e := by
  simp only [toBytes_eq, bind_eq_error, reduceCtorEq, and_false, exists_false, or_false]

theorem packed_of_layout (h : d.layout = .ok l) : ∃ a size rs, d.Laid l size rs
    ∧ d.Packed d.options.order (l.toContent d.options.order).toBytes a l := by
  obtain ⟨size, rs, laid⟩ := laid_of_layout h
  obtain ⟨a, packed⟩ := laid.packed d.options.order
  exact ⟨a, size, rs, laid, packed⟩

theorem packed_of_toBytes (built : d.toBytes = .ok data) :
    ∃ a l size rs, d.Laid l size rs ∧ d.Packed d.options.order data a l := by
  obtain ⟨l, layout, rfl⟩ := toBytes_eq_ok.1 built
  obtain ⟨a, size, rs, laid, packed⟩ := packed_of_layout layout
  exact ⟨a, l, size, rs, laid, packed⟩

/-- Whatever was added, in whatever calls, a container that could be built is read back: each name that
    is held is found with what it was given, and no other name is found. Contents can be read where the
    length of the container is a 64-bit word, as that of every byte string in memory is. -/
theorem round_trip {options : Options} {calls : List Resource} {data : Bytes}
    (built : (addAll { options := options } calls).toBytes = .ok data) :
    ∃ a, Archive.ofBytes options.order data = .ok a
      ∧ (∀ name, (addAll { options := options } calls).contains name = (firstGiven calls name).isSome)
      ∧ (∀ name, firstGiven calls name = none → a.find? name = .ok none)
      ∧ (∀ name payload, firstGiven calls name = some payload →
          ∃ l, a.find? name = .ok (some l) ∧ NameParts.split name = .ok l.name
            ∧ l.compressedSize = payload.compressedSize
            ∧ l.uncompressedSize = payload.uncompressedSize
            ∧ (data.length < UInt64.size → ∃ content,
                a.readByName (.ofBytes data) name = .ok content
                  ∧ content.toBytes = payload.stored.toBytes))
      ∧ ∃ names, a.entryNames = .ok names
          ∧ names.Pairwise (fun s t => utf8 s < utf8 t)
          ∧ (∀ name, name ∈ names ↔ (firstGiven calls name).isSome)
          ∧ (data.length < UInt64.size → a.verify = .ok names.length) := by
  have held (name : String) :
      (addAll { options := options } calls).payloads[name]? = firstGiven calls name := by
    rw [getElem?_addAll]
    exact congrArg (Option.or · _) Std.TreeMap.getElem?_emptyc
  have order : (addAll { options := options } calls).options = options := options_addAll ..
  generalize addAll { options := options } calls = d at *
  obtain ⟨a, l, size, rs, laid, packed⟩ := packed_of_toBytes built
  have storable : ∀ r ∈ d.resources, r.2.isStorable := by
    intro r hr
    have given := (held r.1).symm.trans (mem_resources.1 hr)
    exact (Bool.and_eq_true_iff.1 (storable_of_firstGiven given)).1
  have member (name : String) : name ∈ d.resources.map (·.1) ↔ (firstGiven calls name).isSome := by
    rw [List.mem_map, ← held, Option.isSome_iff_exists]
    constructor
    · rintro ⟨⟨name, payload⟩, hr, rfl⟩
      exact ⟨payload, mem_resources.1 hr⟩
    · rintro ⟨payload, given⟩
      exact ⟨(name, payload), mem_resources.2 given, rfl⟩
  refine ⟨a, ?_, ?_, ?_, ?_, d.resources.map (·.1), laid.entryNames_eq packed, ?_, member, ?_⟩
  · exact order ▸ Archive.ofBytes_eq_ok.2 packed.opened
  · intro name
    rw [← held]
    exact Std.TreeMap.contains_eq_isSome_getElem?
  · intro name none
    refine laid.find?_absent packed ?_
    intro r hr same
    have given := (member name).1 (List.mem_map.2 ⟨r, hr, same⟩)
    rw [none] at given
    cases given
  · intro name payload given
    obtain ⟨i, hi, resource⟩ := List.mem_iff_getElem.1 (mem_resources.2 ((held name).trans given))
    have found := laid.find?_held packed hi
    have named := split_locationOf hi
    have read (word) := laid.readByName_held packed word hi (storable _ (List.getElem_mem hi))
    rw [resource] at found named read
    refine ⟨d.locationOf i hi, found, named, ?_, ?_, read⟩
    · rw [locationOf, resource]
      rfl
    · rw [locationOf, resource]
      rfl
  · rw [List.pairwise_map]
    exact resources_ascending
  · intro word
    rw [List.length_map, resources_length]
    exact laid.verify_eq packed word storable

/-- Two resources, a name that is given a second time and a name that cannot be stored. -/
def fourCalls : List Resource :=
  [("/m/p/b.x", .plain (.ofBytes [1, 2, 3])), ("a", .compressed (.ofBytes [9]) 5),
    ("a", .plain (.ofBytes [])), ("/a", .plain (.ofBytes []))]

theorem round_trip_fourCalls : ∃ data a, (addAll {} fourCalls).toBytes = .ok data
    ∧ Archive.ofBytes .little data = .ok a ∧ a.find? "/a" = .ok none
    ∧ ∃ content, a.readByName (.ofBytes data) "a" = .ok content ∧ content.toBytes = [9] := by
  have short : (addAll {} fourCalls).toBytes.toOption.any (·.length < UInt64.size) := by
    decide +kernel
  rcases built : (addAll {} fourCalls).toBytes with e | data
  · rw [built] at short
    cases short
  · rw [built] at short
    obtain ⟨a, opened, -, absent, held, -⟩ := round_trip built
    obtain ⟨l, -, -, -, -, read⟩ := held "a" (.compressed (.ofBytes [9]) 5) (by decide)
    exact ⟨data, a, rfl, opened, absent "/a" (by decide), read (of_decide_eq_true short)⟩

end Draft

end ResourceArchive
