import ResourceArchive.Proofs.Refusals
import ResourceArchive.Proofs.Slices

/-! Bounds. The regions of an index follow one another from the header to the content, so a container
    that is as long as its index holds them all. With this, and with what each operation checks, every
    slice that is taken of a container is there. -/

namespace ResourceArchive

/-! ### Layout -/

namespace Header

/-- The regions of the index: where each begins, and its size. -/
def regions (h : Header) : List (Nat × Nat) :=
  [(h.redirectOffset, h.tableSize), (h.offsetsOffset, h.tableSize),
    (h.locationsOffset, h.locationsSize.toNat), (h.stringsOffset, h.stringsSize.toNat)]

end Header

/-- Regions that follow one another without gaps from `start` to `stop`. -/
def Adjacent : Nat → List (Nat × Nat) → Nat → Prop
  | start, [], stop => start = stop
  | start, (offset, size) :: rest, stop => offset = start ∧ Adjacent (offset + size) rest stop

theorem Adjacent.inside {start stop : Nat} {regions : List (Nat × Nat)}
    (h : Adjacent start regions stop) :
    start ≤ stop ∧ ∀ r ∈ regions, start ≤ r.1 ∧ r.1 + r.2 ≤ stop := by
  induction regions generalizing start with
  | nil => exact ⟨Nat.le_of_eq h, fun _ hr => absurd hr List.not_mem_nil⟩
  | cons r rest ih =>
    obtain ⟨rfl, h⟩ := h
    obtain ⟨le, inside⟩ := ih h
    refine ⟨by omega, ?_⟩
    intro s hs
    rcases List.mem_cons.1 hs with rfl | hs
    · exact ⟨Nat.le_refl _, le⟩
    · have := inside s hs
      omega

/-- Regions that follow one another have no byte in common. -/
theorem Adjacent.apart {start stop : Nat} {regions : List (Nat × Nat)}
    (h : Adjacent start regions stop) : regions.Pairwise fun r s => r.1 + r.2 ≤ s.1 := by
  induction regions generalizing start with
  | nil => exact .nil
  | cons r rest ih =>
    obtain ⟨rfl, h⟩ := h
    exact .cons (fun s hs => (h.inside.2 s hs).1) (ih h)

theorem Header.adjacent (h : Header) : Adjacent size h.regions h.indexSize :=
  ⟨rfl, rfl, rfl, rfl, rfl⟩

theorem Header.indexSize_lt (h : Header) : h.indexSize < UInt64.size := by
  have buckets := h.bucketCount.toNat_lt
  have locations := h.locationsSize.toNat_lt
  have strings := h.stringsSize.toNat_lt
  simp only [indexSize, stringsOffset, locationsOffset, offsetsOffset, redirectOffset, tableSize, size,
    UInt64.size]
  omega

/-! ### Slices -/

namespace Sliced

@[simp] theorem slice_rest (c : Content) (position : Nat) :
    (c.slice position (c.length - position)).toBytes = c.toBytes.drop position := by
  have rest : (c.toBytes.drop position).length = c.length - position := by
    rw [List.length_drop, Content.toBytes_length]
  rw [Content.toBytes_slice, List.take_of_length_le (Nat.le_of_eq rest)]

/-- The string up to its zero ends where what is left of the pool ends, or before. -/
theorem bytesAt_eq (pool : Pool) (offset : UInt64) :
    bytesAt pool.content offset = done (pool.bytesAt offset) := by
  unfold bytesAt Pool.bytesAt Pool.size
  split
  · rfl
  · next inside =>
    rw [cut_eq (Nat.le_of_not_le inside) (Nat.le_refl _), Content.beforeZero?_eq,
      ← Content.take_findIdx?_zero, ← slice_rest]
    generalize pool.content.slice offset.toNat _ = remaining
    simp only [done_ok_bind]
    rcases hstop : remaining.toBytes.findIdx? (· == 0) with _ | stop
    · rfl
    · obtain ⟨short, -⟩ := List.findIdx?_eq_some_iff_getElem.1 hstop
      rw [Content.toBytes_length] at short
      simp only [cut_eq (Nat.zero_le _) (Nat.le_of_lt short), done_ok_bind, Content.toBytes_slice,
        List.drop_zero]
      rfl

theorem textAt_eq (pool : Pool) (offset : UInt64) :
    textAt pool.content offset = done (pool.textAt offset) := by
  rw [textAt, Pool.textAt, bytesAt_eq, ← done_bind]
  congr 1
  funext bs
  rcases text? bs <;> rfl

theorem resolve_eq (record : Record) (pool : Pool) :
    resolve record pool.content = done (Location.resolve record pool) := by
  simp only [resolve, Location.resolve, textAt_eq, ← done_bind]
  rfl

/-- A record is read from the rest of the records, also where nothing is left of them. -/
theorem next_eq (records : Content) (pool : Pool) (position : Nat) :
    next records pool.content position = done (do
      let (record, position) ← Record.readAt records position
      let l ← Location.resolve record pool
      return (l, position)) := by
  have rest : records.toBytes.drop (min position records.length) = records.toBytes.drop position := by
    rcases Nat.le_total position records.length with h | h
    · rw [Nat.min_eq_left h]
    · have all := Nat.le_of_eq records.toBytes_length
      rw [Nat.min_eq_right h, List.drop_of_length_le all, List.drop_of_length_le (Nat.le_trans all h)]
  simp only [next, cut_eq (Nat.min_le_right ..) (Nat.le_refl _), done_ok_bind, slice_rest, rest,
    Record.readAt_eq]
  rcases hr : Record.decode (records.toBytes.drop position) with e | ⟨record, left⟩
  · rfl
  · have inside : position ≤ records.length := by
      refine Nat.le_of_not_lt ?_
      intro past
      rw [List.drop_of_length_le (by rw [Content.toBytes_length]; omega), Record.decode,
        Record.decodeInto_error rfl] at hr
      cases hr
    have shorter := (Record.decodeInto_suffix hr).length_le
    rw [List.length_drop, Content.toBytes_length] at shorter
    have there : position + ((records.slice (min position records.length)
        (records.length - min position records.length)).length - left.length)
        = records.length - left.length := by
      rw [Content.slice_length]
      omega
    simp only [done_ok_bind, there, resolve_eq]
    exact done_bind _ fun l => .ok (l, _)

theorem locationsFrom_eq (a : Archive) (n position : Nat) :
    locationsFrom a.records a.strings.content n position
      = some ((a.readingsFrom n ⟨position, n⟩).map Prod.snd) := by
  induction n generalizing position with
  | zero => rfl
  | succ n ih =>
    rw [locationsFrom, next_eq, Archive.readingsFrom, Archive.next?]
    rcases Record.readAt a.records position with e | ⟨record, after⟩
    · -- Nothing is due after an error, so the list ends here.
      rcases n with _ | n <;> rfl
    · simp only [bind, Except.bind]
      rcases Location.resolve record a.strings with e | l
      · rcases n with _ | n <;> rfl
      · exact congrArg (Option.map (Except.ok l :: ·)) (ih after)

end Sliced

namespace Container

open Sliced

/-- An archive is what the regions of a container hold. -/
structure Backs (c : Container) (a : Archive) : Prop where
  header_eq : a.header = c.header
  length_eq : a.length = c.content.length
  tables : c.tables = done (.ok a.tables)
  records : c.records = done (.ok a.records)
  strings : c.strings = done (.ok a.strings.content)

variable {c : Container} {a : Archive} {α σ : Type}

theorem holds_eq (h : c.Backs a) (offset size : UInt64) : c.holds offset size = a.holds offset size := by
  rw [holds, Archive.holds, Archive.indexSize, h.header_eq, h.length_eq]

theorem locationAt_eq (h : c.Backs a) (offset : UInt32) :
    c.locationAt offset = done (a.locationAt offset) := by
  simp only [locationAt, Archive.locationAt, h.records, done_ok_bind]
  split
  · rfl
  · next inside =>
    simp only [cut_eq (Nat.le_of_not_le inside) (Nat.le_refl _), h.strings, Location.readAt_eq, done_ok_bind,
      slice_rest]
    simp only [resolve_eq, done_bind]
    rfl

theorem find?_eq (h : c.Backs a) (name : String) : c.find? name = done (a.find? name) := by
  simp only [find?, Archive.find?, h.tables, done_ok_bind]
  rw [← done_bind]
  congr 1
  funext found
  rcases found with _ | offset
  · rfl
  · simp only [locationAt_eq h, ← done_bind]
    rfl

theorem locations_eq (h : c.Backs a) : c.locations = done (.ok a.locations) := by
  simp only [locations, h.records, h.strings, done_ok_bind, locationsFrom_eq, ← h.header_eq]
  rfl

theorem fold_eq (h : c.Backs a) {use : σ → Location → Sliced σ} {use' : σ → Location → Except Error σ}
    (same : ∀ state l, use state l = done (use' state l)) (state : σ) :
    c.fold use state = done (a.fold use' state) := by
  have step (state : σ) (item : Except Error Location) :
      done item >>= use state = done (item.bind (use' state)) := by
    rw [show use state = fun l => done (use' state l) from funext (same state), done_bind]
    rfl
  simp only [fold, locations_eq h, Archive.fold_eq, done_ok_bind, step]
  generalize a.locations = items
  induction items generalizing state with
  | nil => rfl
  | cons item items ih =>
    simp only [List.foldlM_cons, ih]
    exact done_bind ..

theorem entryNames_eq (h : c.Backs a) : c.entryNames = done a.entryNames := by
  have names := fold_eq h (fun (names : List String) l =>
    show pure (l.fullName :: names) = done (.ok (l.fullName :: names)) from rfl) []
  rw [entryNames, names, done_map]
  rfl

theorem moduleNames_eq (h : c.Backs a) : c.moduleNames = done a.moduleNames := by
  have modules := fold_eq h (fun (modules : Std.TreeSet String) l =>
    show pure (if l.name.module = "" then modules else modules.insert l.name.module) = done (.ok _)
      from rfl) {}
  rw [moduleNames, modules, done_map]
  rfl

theorem check_eq (h : c.Backs a) (l : Location) : c.check l = done (a.check l) := by
  rw [check, find?_eq h, Archive.check]
  rcases a.find? l.fullName with e | found
  · rfl
  · show (if found ≠ some l then _ else _) = done (if found ≠ some l then _ else _)
    rw [holds_eq h, ← h.length_eq]
    split
    · rfl
    · split <;> rfl

theorem verify_eq (h : c.Backs a) : c.verify = done a.verify :=
  fold_eq h (fun count l => by rw [check_eq h, done_map]; rfl) 0

theorem readContent_eq (h : c.Backs a) (offset size : UInt64) :
    c.readContent offset size = done (a.readContent c.content offset size) := by
  rw [readContent, Archive.readContent, holds_eq h, h.length_eq]
  split
  · next held =>
    obtain ⟨inside, word⟩ := Archive.holds_iff.1 held
    rw [h.length_eq] at inside
    have full : (c.content.slice (a.indexSize + offset.toNat) size.toNat).length = size.toNat := by
      rw [Content.slice_length]
      omega
    rw [← h.header_eq, ← Archive.indexSize, region_eq inside word]
    simp only [if_pos full]
    exact if_pos full
  · rfl

theorem eq_of_ofBytes {o : ByteOrder} {data : Bytes} (opened : ofBytes o data = .ok c) :
    ∃ h, Header.parse data o = .ok h ∧ h.indexSize ≤ data.length ∧ c = ⟨o, h, .ofBytes data⟩ := by
  obtain ⟨h, parsed, opened⟩ := bind_eq_ok.1 opened
  split at opened
  · cases opened
  · next indexed =>
    cases opened
    exact ⟨h, parsed, Nat.le_of_not_lt indexed, rfl⟩

theorem regions_inside {o : ByteOrder} {data : Bytes} (opened : ofBytes o data = .ok c)
    (r : Nat × Nat) (hr : r ∈ c.header.regions) :
    r.1 + r.2 < UInt64.size ∧ r.1 + r.2 ≤ data.length := by
  obtain ⟨h, -, indexed, rfl⟩ := eq_of_ofBytes opened
  have inside := (h.adjacent.inside.2 r hr).2
  have word := h.indexSize_lt
  omega

/-- The regions of an open container are there, so an archive can be made of them. -/
theorem backs_of_ofBytes {o : ByteOrder} {data : Bytes} (opened : ofBytes o data = .ok c) :
    ∃ a, Archive.ofBytes o data = .ok a ∧ c.Backs a := by
  have inside := regions_inside opened
  obtain ⟨h, parsed, indexed, rfl⟩ := eq_of_ofBytes opened
  have length : (Content.ofBytes data).length = data.length := by
    rw [← Content.toBytes_length, Content.toBytes_ofBytes]
  have there (r : Nat × Nat) (hr : r ∈ h.regions) :
      region (.ofBytes data) r.1 r.2 = done (.ok ((Content.ofBytes data).slice r.1 r.2))
        ∧ ((Content.ofBytes data).slice r.1 r.2).length = r.2 := by
    obtain ⟨word, inside⟩ := inside r hr
    refine ⟨region_eq (by omega) word, ?_⟩
    rw [Content.slice_length]
    omega
  obtain ⟨redirects, size⟩ := there (h.redirectOffset, h.tableSize) (by simp [Header.regions])
  obtain ⟨offsets, size'⟩ := there (h.offsetsOffset, h.tableSize) (by simp [Header.regions])
  obtain ⟨records, -⟩ := there (h.locationsOffset, h.locationsSize.toNat) (by simp [Header.regions])
  obtain ⟨strings, -⟩ := there (h.stringsOffset, h.stringsSize.toNat) (by simp [Header.regions])
  have taken : Tables.ofContents ((Content.ofBytes data).slice h.redirectOffset h.tableSize)
      ((Content.ofBytes data).slice h.offsetsOffset h.tableSize) h.bucketCount.toNat o = .ok _ :=
    if_pos ⟨size, size'⟩
  refine ⟨⟨o, h, _, _, _, data.length⟩, Archive.ofBytes_eq_ok.2
    ⟨rfl, parsed, indexed, rfl, taken, rfl, rfl⟩, rfl, length.symm, ?_, records, strings⟩
  rw [tables, redirects, ← taken]
  simp only [offsets]
  rfl

/-- Whatever the bytes of a container that could be opened: the regions of its index follow one another
    and lie in it, a lookup is refused only for what the index says, and no operation takes a slice that
    is not there. -/
theorem never_stuck_of_ofBytes {o : ByteOrder} {data : Bytes} {c : Container}
    (opened : ofBytes o data = .ok c) :
    Adjacent 32 c.header.regions c.header.indexSize
    ∧ c.header.regions.Pairwise (fun r s => r.1 + r.2 ≤ s.1)
    ∧ (∀ r ∈ c.header.regions, r.1 + r.2 < UInt64.size ∧ r.1 + r.2 ≤ data.length)
    ∧ c.header.indexSize < UInt64.size ∧ c.header.indexSize ≤ data.length
    ∧ ∃ a, Archive.ofBytes o data = .ok a
      ∧ c.tables = done (.ok a.tables)
      ∧ (∀ name, c.find? name = done (a.find? name) ∧ ∀ e, a.find? name = .error e → e.OfIndex)
      ∧ (∀ offset, c.locationAt offset = done (a.locationAt offset))
      ∧ c.locations = done (.ok a.locations)
      ∧ c.entryNames = done a.entryNames
      ∧ c.moduleNames = done a.moduleNames
      ∧ c.verify = done a.verify
      ∧ ∀ offset size, c.readContent offset size = done (a.readContent (.ofBytes data) offset size) := by
  obtain ⟨a, archive, backs⟩ := backs_of_ofBytes opened
  refine ⟨c.header.adjacent, c.header.adjacent.apart, regions_inside opened, c.header.indexSize_lt, ?_,
    a, archive, backs.tables, fun name => ⟨find?_eq backs name, ?_⟩, locationAt_eq backs,
    locations_eq backs, entryNames_eq backs, moduleNames_eq backs, verify_eq backs, ?_⟩
  · exact backs.header_eq ▸ (Archive.ofBytes_eq_ok.1 archive).indexed
  · exact (Archive.ofBytes_eq_ok.1 archive).find?_error
  · obtain ⟨h, -, -, rfl⟩ := eq_of_ofBytes opened
    exact readContent_eq backs

/-- A container of one bucket, whose redirect is the least signed word. -/
def astray : Bytes :=
  (Header.ofSizes 1 1 1 1).encode .little ++ [0, 0, 0, 0x80] ++ [0xFF, 0xFF, 0xFF, 0xFF] ++ [0] ++ [0]

theorem never_stuck_of_ofBytes_astray : ∃ c a, ofBytes .little astray = .ok c
    ∧ c.find? "a" = done (.error (.corrupt .redirectOutsideIndex))
    ∧ c.locations = done (.ok (Archive.locations a))
    ∧ c.readContent 0 0xFFFFFFFFFFFFFFFF
      = done (.error (.contentOutOfRange 0 0xFFFFFFFFFFFFFFFF astray.length)) := by
  obtain ⟨c, opened⟩ : ∃ c, ofBytes .little astray = .ok c := ⟨_, rfl⟩
  obtain ⟨-, -, -, -, -, a, archive, -, find, -, locations, -, -, -, read⟩ :=
    never_stuck_of_ofBytes opened
  have refused : (Archive.ofBytes .little astray >>= fun a => a.find? "a")
      = .error (.corrupt .redirectOutsideIndex) := rfl
  rw [archive] at refused
  have short : astray.length < (0xFFFFFFFFFFFFFFFF : UInt64).toNat := by decide
  have outside : a.readContent (.ofBytes astray) 0 0xFFFFFFFFFFFFFFFF = _ :=
    (Archive.ofBytes_eq_ok.1 archive).readContent_outside (.inl (by omega)) _
  exact ⟨c, a, opened, (find "a").1.trans (congrArg done refused), locations,
    (read _ _).trans (congrArg done outside)⟩

end Container

end ResourceArchive
