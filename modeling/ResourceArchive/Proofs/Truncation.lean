import ResourceArchive.Proofs.Regions
import ResourceArchive.Proofs.RoundTrip

/-! Containers that were cut off, and containers that something follows. The contents fill a built
    container to its last byte, so a cut always costs something: the header, the index, or the content of
    a resource, of which the first in order is named when the container is verified. What follows a
    container is never looked at. -/

namespace ResourceArchive

namespace Archive

variable {a : Archive} {o : ByteOrder} {data data' : Bytes} {l : Location}

/-! ### Opening again -/

theorem size_le_indexSize (a : Archive) : 32 ≤ a.indexSize := by
  simp only [indexSize, Header.indexSize, Header.stringsOffset, Header.locationsOffset,
    Header.offsetsOffset, Header.redirectOffset, Header.size]
  omega

/-- With less than its index a container is refused, and it depends on the length for what. -/
theorem Opened.ofBytes_take (h : a.Opened o data) (k : Nat) :
    (k < 4 → ofBytes o (data.take k) = .error .badMagic)
    ∧ (4 ≤ k → k < 32 → ofBytes o (data.take k) = .error (.corrupt .headerTruncated))
    ∧ (32 ≤ k → k < a.indexSize → ofBytes o (data.take k) = .error (.corrupt .shorterThanIndex)) := by
  refine ⟨?_, ?_, ?_⟩
  · intro short
    refine ofBytes_of_parse_error (Header.parse_of_length_lt ?_)
    rw [List.length_take]
    omega
  · intro word short
    exact ofBytes_of_parse_error (Header.parse_take_of_lt h.parsed word short)
  · intro whole short
    have parsed : Header.parse (data.take k) o = .ok a.header := by
      rw [Header.parse_take data whole, h.parsed]
    have cut : (data.take k).length < a.header.indexSize := by
      rw [List.length_take]
      exact Nat.lt_of_le_of_lt (Nat.min_le_left ..) short
    rw [ofBytes, parsed, ok_bind, if_pos cut]
    rfl

/-- With all of its index a container can be opened, and its index gives the same answers. -/
theorem Opened.reopen (h : a.Opened o data) (same : data'.take a.indexSize = data.take a.indexSize)
    (indexed : a.indexSize ≤ data'.length) : ∃ b : Archive, b.Opened o data' ∧ b.SameIndex a := by
  have whole := size_le_indexSize a
  have parsed : Header.parse data' o = .ok a.header := by
    rw [← Header.parse_take data' whole, same, Header.parse_take data whole, h.parsed]
  obtain ⟨b, opened, -, marked⟩ := ofBytes_marked parsed indexed
  exact ⟨b, ofBytes_eq_ok.1 opened, marked.sameIndex h.marked same⟩

/-! ### Reading again -/

theorem Opened.bytesNamed_inside {name : String} (h : a.Opened o data)
    (found : a.find? name = .ok (some l)) (inside : a.stop l ≤ data.length)
    (word : a.stop l < UInt64.size) :
    a.bytesNamed data name
      = .ok ((data.drop (a.indexSize + l.contentOffset.toNat)).take l.storedSize.toNat) := by
  have held : a.holds l.contentOffset l.storedSize := holds_iff.2 ⟨h.length_eq ▸ inside, word⟩
  have there : a.stop l ≤ (Content.ofBytes data).length := by
    rwa [← Content.toBytes_length, Content.toBytes_ofBytes]
  rw [bytesNamed_eq found, toBytes_readContent, if_pos held, if_pos (.inr there),
    Content.toBytes_ofBytes]

theorem Opened.bytesNamed_outside {name : String} (h : a.Opened o data)
    (found : a.find? name = .ok (some l)) (outside : data.length < a.stop l) :
    a.bytesNamed data name
      = .error (.contentOutOfRange l.contentOffset l.storedSize data.length) := by
  have missing : ¬a.holds l.contentOffset l.storedSize := fun held =>
    Nat.not_le.2 outside (h.length_eq ▸ (holds_iff.1 held).1)
  rw [bytesNamed_eq found, toBytes_readContent, if_neg missing, h.length_eq]

/-! ### Verifying -/

theorem check_of_not_holds (found : a.find? l.fullName = .ok (some l))
    (missing : ¬a.holds l.contentOffset l.storedSize) :
    a.check l = .error (.contentOutOfRange l.contentOffset l.storedSize a.length) := by
  simp only [check, found, ok_bind, ne_eq, not_true_eq_false, if_false, missing]
  rfl

/-- Verifying stops at the first resource that does not pass. -/
theorem verify_eq_error {before after : List Location} {e : Error}
    (listed : a.locations = (before ++ l :: after).map .ok)
    (pass : ∀ m ∈ before, a.check m = .ok ()) (fails : a.check l = .error e) :
    a.verify = .error e := by
  have passes : ∀ count : Nat, ∀ m ∈ before, ((a.check m).map fun _ => count + 1) = .ok (count + 1) := by
    intro count m hm
    rw [pass m hm]
    rfl
  rw [verify, fold_eq, listed, List.map_append, List.foldlM_append,
    foldlM_map_ok _ (fun count _ => count + 1) _ passes, ok_bind, List.map_cons, List.foldlM_cons,
    Except.bind, fails]
  rfl

end Archive

namespace Draft

variable {d : Draft} {o : ByteOrder} {data : Bytes} {a b : Archive} {l : Layout} {size : Nat}
  {rs : List Record} {i : Nat}

/-! ### Where contents end -/

theorem contentBefore_succ {resources : List Resource} (hi : i < resources.length) :
    contentBefore resources (i + 1) = contentBefore resources i + resources[i].2.stored.length := by
  rw [contentBefore, contentBefore, List.take_succ_eq_append_getElem hi, List.flatMap_append,
    List.length_append, List.flatMap_singleton, Content.toBytes_length]

theorem contentBefore_le (resources : List Resource) (i : Nat) :
    contentBefore resources i ≤ contentBefore resources resources.length := by
  have parts := congrArg (List.flatMap fun r => r.2.stored.toBytes) (List.take_append_drop i resources)
  rw [List.flatMap_append] at parts
  rw [contentBefore, contentBefore, List.take_length, ← parts, List.length_append]
  exact Nat.le_add_right ..

/-- The contents end where the container ends. -/
theorem Laid.length_eq (laid : d.Laid l size rs) (packed : d.Packed o data a l) :
    data.length = a.indexSize + contentBefore d.resources d.resources.length := by
  have contents := congrArg List.length packed.contents
  have indexed := packed.opened.indexed
  rw [List.length_drop, laid.contents_eq, List.flatMap_map] at contents
  rw [contentBefore, List.take_length, ← contents]
  omega

/-- The content of a resource ends behind it and the contents before it. -/
theorem Laid.stop_eq (laid : d.Laid l size rs) (packed : d.Packed o data a l)
    (word : data.length < UInt64.size) (hi : i < d.resources.length)
    (storable : d.resources[i].2.isStorable) :
    a.stop (d.locationOf i hi) = a.indexSize + contentBefore d.resources (i + 1) := by
  have length := laid.length_eq packed
  have inside := contentBefore_le d.resources (i + 1)
  rw [contentBefore_succ hi] at inside ⊢
  have offset : (d.locationOf i hi).contentOffset.toNat = contentBefore d.resources i :=
    UInt64.toNat_ofNat_of_lt' (by omega)
  have stored : (d.locationOf i hi).storedSize.toNat = d.resources[i].2.stored.length :=
    storedSize_location storable (by omega)
  rw [Archive.stop, offset, stored, Nat.add_assoc]

/-! ### Behind the index -/

/-- A resource is read again from any container with the same bytes up to the end of its content. -/
theorem Laid.bytesNamed_held (laid : d.Laid l size rs) (packed : d.Packed o data a l)
    (word : data.length < UInt64.size) (hi : i < d.resources.length)
    (storable : d.resources[i].2.isStorable) {data' : Bytes} (reopened : b.Opened o data')
    (same : b.SameIndex a)
    (agree : data'.take (a.stop (d.locationOf i hi)) = data.take (a.stop (d.locationOf i hi)))
    (inside : a.stop (d.locationOf i hi) ≤ data'.length) :
    b.bytesNamed data' d.resources[i].1 = .ok d.resources[i].2.stored.toBytes := by
  obtain ⟨within, bytes⟩ := laid.content_at packed word hi storable
  have stop : b.stop (d.locationOf i hi) = a.stop (d.locationOf i hi) := by
    rw [Archive.stop, Archive.stop, same.indexSize_eq]
  have found : b.find? d.resources[i].1 = .ok (some (d.locationOf i hi)) := by
    rw [same.find?_eq, laid.find?_held packed hi]
  rw [reopened.bytesNamed_inside found (stop ▸ inside) (stop ▸ Nat.lt_of_le_of_lt within word),
    same.indexSize_eq, Header.take_drop_congr agree (Nat.le_refl _), bytes]

/-- A resource is not read where its content does not end within the container. -/
theorem Laid.bytesNamed_beyond (laid : d.Laid l size rs) (packed : d.Packed o data a l)
    (hi : i < d.resources.length) {data' : Bytes} (reopened : b.Opened o data') (same : b.SameIndex a)
    (outside : data'.length < a.stop (d.locationOf i hi)) : b.bytesNamed data' d.resources[i].1 =
      .error (.contentOutOfRange (d.locationOf i hi).contentOffset (d.locationOf i hi).storedSize
        data'.length) := by
  have stop : b.stop (d.locationOf i hi) = a.stop (d.locationOf i hi) := by
    rw [Archive.stop, Archive.stop, same.indexSize_eq]
  have found : b.find? d.resources[i].1 = .ok (some (d.locationOf i hi)) := by
    rw [same.find?_eq, laid.find?_held packed hi]
  exact reopened.bytesNamed_outside found (stop ▸ outside)

/-- A resource passes if its content ends within the container, and else is what verifying names. -/
theorem Laid.check_reopened (laid : d.Laid l size rs) (packed : d.Packed o data a l)
    (word : data.length < UInt64.size) (hi : i < d.resources.length)
    (storable : d.resources[i].2.isStorable) {data' : Bytes} (reopened : b.Opened o data')
    (same : b.SameIndex a) : b.check (d.locationOf i hi) =
      if a.stop (d.locationOf i hi) ≤ data'.length then .ok ()
      else .error (.contentOutOfRange (d.locationOf i hi).contentOffset (d.locationOf i hi).storedSize
        data'.length) := by
  obtain ⟨within, -⟩ := laid.content_at packed word hi storable
  have found : b.find? (d.locationOf i hi).fullName = .ok (some (d.locationOf i hi)) := by
    rw [same.find?_eq, fullName_locationOf, laid.find?_held packed hi]
  have held : b.holds (d.locationOf i hi).contentOffset (d.locationOf i hi).storedSize
      ↔ a.stop (d.locationOf i hi) ≤ data'.length := by
    rw [Archive.holds_iff, same.indexSize_eq, reopened.length_eq]
    exact ⟨And.left, fun inside => ⟨inside, Nat.lt_of_le_of_lt within word⟩⟩
  split
  · next inside => exact Archive.check_of_find? found (held.2 inside)
  · next outside => rw [Archive.check_of_not_holds found (mt held.1 outside), reopened.length_eq]

/-- The last content ends where the container ends, so a cut leaves some content incomplete; the first
    of these is what verifying names. -/
theorem Laid.verify_cut (laid : d.Laid l size rs) (packed : d.Packed o data a l)
    (word : data.length < UInt64.size) (storable : ∀ r ∈ d.resources, r.2.isStorable) {k : Nat}
    (reopened : b.Opened o (data.take k)) (same : b.SameIndex a) (behind : a.indexSize ≤ k)
    (cut : k < data.length) : ∃ before m after, locations 0 d.resources = before ++ m :: after
      ∧ (∀ n ∈ before, a.stop n ≤ k) ∧ k < a.stop m
      ∧ b.verify = .error (.contentOutOfRange m.contentOffset m.storedSize k) := by
  have length : (data.take k).length = k := by
    rw [List.length_take]
    omega
  have check : ∀ m ∈ locations 0 d.resources, b.check m = if a.stop m ≤ k then .ok ()
      else .error (.contentOutOfRange m.contentOffset m.storedSize k) := by
    intro m hm
    obtain ⟨i, hi, rfl⟩ := exists_locationOf hm
    have check := laid.check_reopened packed word hi (storable _ (List.getElem_mem hi)) reopened same
    rwa [length] at check
  have whole := laid.length_eq packed
  have beyond : ∃ m ∈ locations 0 d.resources, k < a.stop m := by
    rcases Nat.eq_zero_or_pos d.resources.length with none | some
    · rw [none] at whole
      exact absurd cut (by rw [whole]; exact Nat.not_lt.2 behind)
    · have last : d.resources.length - 1 < d.resources.length := Nat.sub_lt some Nat.one_pos
      have stop := laid.stop_eq packed word last (storable _ (List.getElem_mem last))
      rw [Nat.sub_add_cancel some, ← whole] at stop
      have listed := getElem?_locations 0 d.resources last
      rw [Nat.zero_add] at listed
      exact ⟨_, List.mem_of_getElem? listed, Nat.lt_of_lt_of_eq cut stop.symm⟩
  obtain ⟨m, first⟩ : ∃ m, (locations 0 d.resources).find? (fun m => k < a.stop m) = some m := by
    rw [← Option.isSome_iff_exists, List.find?_isSome]
    simpa using beyond
  obtain ⟨outside, before, after, parts, earlier⟩ := List.find?_eq_some_iff_append.1 first
  have outside : k < a.stop m := by simpa using outside
  have earlier : ∀ n ∈ before, a.stop n ≤ k := fun n hn => by simpa using earlier n hn
  refine ⟨before, m, after, parts, earlier, outside, ?_⟩
  rw [parts] at check
  have listed : b.locations = (before ++ m :: after).map .ok := by
    rw [same.locations_eq, laid.locations_eq packed, parts]
  refine Archive.verify_eq_error listed ?_ ?_
  · intro n hn
    rw [check n (List.mem_append_left _ hn), if_pos (earlier n hn)]
  · rw [check m (List.mem_append_right _ (.head _)), if_neg (Nat.not_le.2 outside)]

/-- What follows a container changes no answer. -/
theorem Laid.appended (laid : d.Laid l size rs) (packed : d.Packed o data a l)
    (word : data.length < UInt64.size) (storable : ∀ r ∈ d.resources, r.2.isStorable) {more : Bytes}
    (reopened : b.Opened o (data ++ more)) (same : b.SameIndex a) :
    (∀ name, b.bytesNamed (data ++ more) name = a.bytesNamed data name) ∧ b.verify = a.verify := by
  have stop {i : Nat} (hi : i < d.resources.length) : a.stop (d.locationOf i hi) ≤ data.length :=
    (laid.content_at packed word hi (storable _ (List.getElem_mem hi))).1
  have longer : data.length ≤ (data ++ more).length := by
    rw [List.length_append]
    exact Nat.le_add_right ..
  constructor
  · intro name
    by_cases held : ∃ r ∈ d.resources, r.1 = name
    · obtain ⟨r, hr, rfl⟩ := held
      obtain ⟨i, hi, rfl⟩ := List.mem_iff_getElem.1 hr
      have before := laid.bytesNamed_held packed word hi (storable _ hr) packed.opened (.refl a) rfl
        (stop hi)
      have after := laid.bytesNamed_held packed word hi (storable _ hr) reopened same
        (List.take_append_of_le_length (stop hi)) (Nat.le_trans (stop hi) longer)
      rw [before, after]
    · have absent := laid.find?_absent packed fun r hr same => held ⟨r, hr, same⟩
      rw [Archive.bytesNamed_absent absent, Archive.bytesNamed_absent (same.find?_eq name ▸ absent)]
  · have pass : ∀ m ∈ locations 0 d.resources, b.check m = .ok () := by
      intro m hm
      obtain ⟨i, hi, rfl⟩ := exists_locationOf hm
      rw [laid.check_reopened packed word hi (storable _ (List.getElem_mem hi)) reopened same,
        if_pos (Nat.le_trans (stop hi) longer)]
    rw [Archive.verify_eq_ok (same.locations_eq.trans (laid.locations_eq packed)) pass,
      laid.verify_eq packed word storable, locations_length, resources_length]

/-! ### Any cut -/

/-- A container that was built is told from each of its beginnings: by its header, by its length, or by
    the first resource, in the order of the names, whose content is not all there. The resources before the
    cut are still read in full, and whatever follows a container changes nothing. The length of a
    container is a 64-bit word, as that of every byte string in memory is. -/
theorem cut_detected {options : Options} {calls : List Resource} {data : Bytes}
    (built : (addAll { options := options } calls).toBytes = .ok data)
    (word : data.length < UInt64.size) :
    ∃ a names, Archive.ofBytes options.order data = .ok a
      ∧ a.entryNames = .ok names ∧ names.Pairwise (fun s t => utf8 s < utf8 t)
      ∧ (∀ k < data.length,
          (k < 4 → Archive.ofBytes options.order (data.take k) = .error .badMagic)
          ∧ (4 ≤ k → k < 32 →
              Archive.ofBytes options.order (data.take k) = .error (.corrupt .headerTruncated))
          ∧ (32 ≤ k → k < a.indexSize →
              Archive.ofBytes options.order (data.take k) = .error (.corrupt .shorterThanIndex))
          ∧ (a.indexSize ≤ k → ∃ b, Archive.ofBytes options.order (data.take k) = .ok b
              ∧ (∀ name, b.find? name = a.find? name)
              ∧ (∀ name payload, firstGiven calls name = some payload →
                  ∃ l, a.find? name = .ok (some l)
                    ∧ (a.stop l ≤ k → b.bytesNamed (data.take k) name = .ok payload.stored.toBytes)
                    ∧ (k < a.stop l → b.bytesNamed (data.take k) name
                        = .error (.contentOutOfRange l.contentOffset l.storedSize k)))
              ∧ ∃ before name after l, names = before ++ name :: after
                  ∧ (∀ n ∈ before, ∃ m, a.find? n = .ok (some m) ∧ a.stop m ≤ k)
                  ∧ a.find? name = .ok (some l) ∧ k < a.stop l
                  ∧ b.verify = .error (.contentOutOfRange l.contentOffset l.storedSize k)))
      ∧ ∀ more, ∃ b, Archive.ofBytes options.order (data ++ more) = .ok b
          ∧ (∀ name, b.find? name = a.find? name)
          ∧ (∀ name, b.bytesNamed (data ++ more) name = a.bytesNamed data name)
          ∧ b.entryNames = a.entryNames ∧ b.verify = a.verify := by
  have held (name : String) :
      (addAll { options := options } calls).payloads[name]? = firstGiven calls name :=
    getElem?_addAll_of_empty calls name rfl
  have storable : ∀ r ∈ (addAll { options := options } calls).resources, r.2.isStorable :=
    storable_of_mem_addAll rfl
  have order : (addAll { options := options } calls).options = options := options_addAll ..
  generalize addAll { options := options } calls = d at *
  obtain ⟨a, l, size, rs, laid, packed⟩ := packed_of_toBytes built
  rw [order] at packed
  have opened := packed.opened
  refine ⟨a, d.resources.map (·.1), Archive.ofBytes_eq_ok.2 opened, laid.entryNames_eq packed,
    ?_, ?_, ?_⟩
  · rw [List.pairwise_map]
    exact resources_ascending
  · intro k cut
    have length : (data.take k).length = k := by
      rw [List.length_take]
      omega
    obtain ⟨magic, header, index⟩ := opened.ofBytes_take k
    refine ⟨magic, header, index, ?_⟩
    intro behind
    have agree : (data.take k).take a.indexSize = data.take a.indexSize := by
      rw [List.take_take, Nat.min_eq_left behind]
    obtain ⟨b, reopened, same⟩ := opened.reopen agree (length.symm ▸ behind)
    refine ⟨b, Archive.ofBytes_eq_ok.2 reopened, same.find?_eq, ?_, ?_⟩
    · intro name payload given
      obtain ⟨i, hi, resource⟩ := List.mem_iff_getElem.1 (mem_resources.2 ((held name).trans given))
      have found := laid.find?_held packed hi
      have read := laid.bytesNamed_held packed word hi (storable _ (List.getElem_mem hi)) reopened same
      have refused := laid.bytesNamed_beyond packed hi reopened same
      rw [length] at read refused
      rw [resource] at found read refused
      refine ⟨_, found, ?_, refused⟩
      intro inside
      exact read (by rw [List.take_take, Nat.min_eq_left inside]) inside
    · obtain ⟨before, m, after, parts, earlier, outside, refused⟩ :=
        laid.verify_cut packed word storable reopened same behind cut
      have found : ∀ n ∈ before ++ m :: after, a.find? n.fullName = .ok (some n) := by
        intro n hn
        obtain ⟨i, hi, rfl⟩ := exists_locationOf (parts ▸ hn)
        rw [fullName_locationOf, laid.find?_held packed hi]
      refine ⟨before.map Location.fullName, m.fullName, after.map Location.fullName, m, ?_, ?_,
        found m (List.mem_append_right _ (.head _)), outside, refused⟩
      · rw [← fullNames_locations 0 fun r => split_of_mem, parts, List.map_append, List.map_cons]
      · intro n hn
        obtain ⟨m', hm', rfl⟩ := List.mem_map.1 hn
        exact ⟨m', found m' (List.mem_append_left _ hm'), earlier m' hm'⟩
  · intro more
    have agree : (data ++ more).take a.indexSize = data.take a.indexSize :=
      List.take_append_of_le_length opened.indexed
    have indexed : a.indexSize ≤ (data ++ more).length := by
      rw [List.length_append]
      exact Nat.le_trans opened.indexed (Nat.le_add_right ..)
    obtain ⟨b, reopened, same⟩ := opened.reopen agree indexed
    obtain ⟨read, verified⟩ := laid.appended packed word storable reopened same
    exact ⟨b, Archive.ofBytes_eq_ok.2 reopened, same.find?_eq, read, same.entryNames_eq, verified⟩

/-- Of two resources the last loses a byte. -/
theorem cut_detected_fourCalls : ∃ data, (addAll {} fourCalls).toBytes = .ok data
    ∧ Archive.ofBytes .little (data.take 3) = .error .badMagic
    ∧ ∃ (b : Archive) (l : Location), Archive.ofBytes .little (data.take (data.length - 1)) = .ok b
      ∧ b.verify = .error (.contentOutOfRange l.contentOffset l.storedSize (data.length - 1)) := by
  have sizes : (addAll {} fourCalls).toBytes.toOption.any fun data => data.length < UInt64.size
      ∧ (Archive.ofBytes .little data).toOption.any (·.indexSize < data.length) := by
    decide +kernel
  rcases built : (addAll {} fourCalls).toBytes with e | data
  · rw [built] at sizes
    cases sizes
  · rw [built] at sizes
    obtain ⟨word, sizes⟩ := of_decide_eq_true sizes
    obtain ⟨a, names, opened, -, -, cut, -⟩ := cut_detected built word
    rw [opened] at sizes
    have contents : a.indexSize < data.length := of_decide_eq_true sizes
    have header := Archive.size_le_indexSize a
    obtain ⟨magic, -⟩ := cut 3 (by omega)
    obtain ⟨-, -, -, behind⟩ := cut (data.length - 1) (by omega)
    obtain ⟨b, reopened, -, -, _, _, _, l, -, -, -, -, refused⟩ := behind (by omega)
    exact ⟨data, rfl, magic (by decide), b, l, reopened, refused⟩

end Draft

end ResourceArchive
