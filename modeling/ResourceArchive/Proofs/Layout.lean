import Mathlib.Data.List.Forall2
import ResourceArchive.Draft
import ResourceArchive.Proofs.Index.Lookup
import ResourceArchive.Proofs.Name
import ResourceArchive.Proofs.Pool
import ResourceArchive.Proofs.Record

/-! What a layout says. Every resource has its record, whose strings are in the pool and whose content
    follows the contents before it, and the offset of the record is where it begins. -/

namespace ResourceArchive

/-- A record says where a resource is, once its strings are looked up in a pool that begins with these
    bytes. -/
def Record.Locates (bs : Bytes) (record : Record) (l : Location) : Prop :=
  ∀ pool : Pool, bs <+: pool.content.toBytes → Location.resolve record pool = .ok l

theorem Record.Locates.mono {bs more : Bytes} {record : Record} {l : Location} (h : record.Locates bs l)
    (longer : bs <+: more) : record.Locates more l := fun pool begins => h pool (longer.trans begins)

namespace Draft

/-- The location of a resource whose content begins at an offset. -/
def location (offset : Nat) (resource : Resource) : Location where
  name := .ofChars resource.1.toList
  contentOffset := UInt64.ofNat offset
  compressedSize := resource.2.compressedSize
  uncompressedSize := resource.2.uncompressedSize

/-- The locations of resources whose contents follow one another from an offset on. -/
def locations (offset : Nat) : List Resource → List Location
  | [] => []
  | resource :: rest =>
    location offset resource :: locations (offset + resource.2.stored.length) rest

theorem locations_length (offset : Nat) (resources : List Resource) :
    (locations offset resources).length = resources.length := by
  induction resources generalizing offset with
  | nil => rfl
  | cons resource rest ih => rw [locations, List.length_cons, List.length_cons, ih]

/-- Number of bytes of the contents before that of the resource at a place. -/
def contentBefore (resources : List Resource) (i : Nat) : Nat :=
  ((resources.take i).flatMap fun r => r.2.stored.toBytes).length

/-- The content of a resource begins behind those of the resources before it. -/
theorem getElem?_locations (offset : Nat) (resources : List Resource) {i : Nat}
    (hi : i < resources.length) : (locations offset resources)[i]?
      = some (location (offset + contentBefore resources i) resources[i]) := by
  induction resources generalizing offset i with
  | nil => cases hi
  | cons first rest ih =>
    cases i with
    | zero => rfl
    | succ i =>
      rw [locations, List.getElem?_cons_succ, ih _ (Nat.lt_of_succ_lt_succ hi), contentBefore,
        contentBefore, List.take_succ_cons, List.flatMap_cons, List.length_append,
        Content.toBytes_length, Nat.add_assoc]
      rfl

variable {pool q : Interner} {offset start : Nat}

/-- The record of a resource says where it is, and keeps to strings that the pool then has. -/
theorem record_locates {resource : Resource} {r : Record} (h : pool.Sound)
    (made : record pool offset resource = .ok (r, q)) :
    q.Sound ∧ pool.bytes <+: q.bytes ∧ r.Locates q.bytes (location offset resource) := by
  obtain ⟨name, payload⟩ := resource
  obtain ⟨parts, named, made⟩ := bind_eq_ok.1 made
  obtain ⟨⟨module, p₁⟩, added₁, made⟩ := bind_eq_ok.1 made
  obtain ⟨⟨parent, p₂⟩, added₂, made⟩ := bind_eq_ok.1 made
  obtain ⟨⟨base, p₃⟩, added₃, made⟩ := bind_eq_ok.1 made
  obtain ⟨⟨extension, p₄⟩, added₄, made⟩ := bind_eq_ok.1 made
  cases made
  obtain ⟨h₁, longer₁, stored₁, word₁⟩ := h.add added₁
  obtain ⟨h₂, longer₂, stored₂, word₂⟩ := h₁.add added₂
  obtain ⟨h₃, longer₃, stored₃, word₃⟩ := h₂.add added₃
  obtain ⟨h₄, longer₄, stored₄, word₄⟩ := h₃.add added₄
  refine ⟨h₄, longer₁.trans (longer₂.trans (longer₃.trans longer₄)), ?_⟩
  intro pool begins
  have read₄ := (stored₄.mono begins).textAt word₄
  have begins := longer₄.trans begins
  have read₃ := (stored₃.mono begins).textAt word₃
  have begins := longer₃.trans begins
  have read₂ := (stored₂.mono begins).textAt word₂
  have read₁ := (stored₁.mono (longer₂.trans begins)).textAt word₁
  rw [Location.resolve, read₁, read₂, read₃, read₄, location, ← NameParts.eq_ofChars_of_split named]
  rfl

/-- The records say, one after another, where the resources are. -/
theorem records_locate {resources : List Resource} {rs : List Record} (h : pool.Sound)
    (made : records pool start offset resources = .ok (rs, q)) :
    q.Sound ∧ pool.bytes <+: q.bytes
      ∧ List.Forall₂ (Record.Locates q.bytes) rs (locations offset resources) := by
  induction resources generalizing pool start offset rs with
  | nil =>
    cases made
    exact ⟨h, List.prefix_refl _, .nil⟩
  | cons resource rest ih =>
    obtain ⟨⟨r, p⟩, first, made⟩ := bind_eq_ok.1 made
    dsimp only at made
    split at made
    · cases made
    obtain ⟨⟨rs', q'⟩, others, made⟩ := bind_eq_ok.1 made
    cases made
    obtain ⟨hp, longer, located⟩ := record_locates h first
    obtain ⟨hq, longest, others⟩ := ih hp others
    exact ⟨hq, longer.trans longest, .cons (located.mono longest) others⟩

/-! ### Regions -/

theorem totalLength_eq (parts : List Bytes) : totalLength parts = parts.flatten.length := by
  induction parts with
  | nil => rfl
  | cons bs rest ih => rw [totalLength, List.flatten_cons, List.length_append, ih]

theorem starts_length (offset : Nat) (parts : List Bytes) :
    (starts offset parts).length = parts.length := by
  induction parts generalizing offset with
  | nil => rfl
  | cons bs rest ih => rw [starts, List.length_cons, List.length_cons, ih]

/-- A part begins behind the parts before it. -/
theorem getElem?_starts (offset : Nat) (parts : List Bytes) {i : Nat} (hi : i < parts.length) :
    (starts offset parts)[i]? = some (offset + (parts.take i).flatten.length) := by
  induction parts generalizing offset i with
  | nil => cases hi
  | cons first rest ih =>
    cases i with
    | zero => rfl
    | succ i =>
      rw [starts, List.getElem?_cons_succ, ih _ (Nat.lt_of_succ_lt_succ hi), List.take_succ_cons,
        List.flatten_cons, List.length_append, Nat.add_assoc]

/-- What the parts of a layout have to do with the draft and with each other. -/
structure Laid (d : Draft) (l : Layout) (size : Nat) (rs : List Record) : Prop where
  buckets : d.options.bucketCount d.size = .ok size
  perfect : l.assignment.Perfect (d.resources.map fun r => utf8 r.1) size
  records_eq : l.records = rs.map Record.encode
  locates : List.Forall₂ (Record.Locates l.strings) rs (locations 0 d.resources)
  offsets_eq : l.recordOffsets = (starts 0 l.records).map UInt32.ofNat
  contents_eq : l.contents = d.resources.map fun r => r.2.stored
  header_eq : l.header = .ofSizes (UInt32.ofNat d.size) (UInt32.ofNat size)
    (UInt32.ofNat l.records.flatten.length) (UInt32.ofNat l.strings.length)
  records_lt : l.records.flatten.length < UInt32.size
  strings_lt : l.strings.length < UInt32.size

/-- A layout is made of an assignment of the names, the records and their strings, where these are
    small enough. -/
theorem layout_eq_ok {d : Draft} {l : Layout} (h : d.layout = .ok l) : ∃ size a rs pool,
    d.options.bucketCount d.size = .ok size
    ∧ Assignment.build (d.resources.map fun r => utf8 r.1) size d.options.maxSeed = .ok a
    ∧ records {} 0 0 d.resources = .ok (rs, pool)
    ∧ (rs.map Record.encode).flatten.length < UInt32.size ∧ pool.size < UInt32.size
    ∧ l = {
      header := .ofSizes (UInt32.ofNat d.size) (UInt32.ofNat size)
        (UInt32.ofNat (rs.map Record.encode).flatten.length) (UInt32.ofNat pool.size)
      assignment := a
      recordOffsets := (starts 0 (rs.map Record.encode)).map UInt32.ofNat
      records := rs.map Record.encode
      strings := pool.bytes
      contents := d.resources.map fun r => r.2.stored } := by
  obtain ⟨size, buckets, h⟩ := bind_eq_ok.1 h
  obtain ⟨a, built, h⟩ := bind_eq_ok.1 h
  obtain ⟨⟨rs, pool⟩, made, h⟩ := bind_eq_ok.1 h
  dsimp only at h
  rw [totalLength_eq] at h
  split at h
  · cases h
  split at h
  · cases h
  next records_lt strings_lt =>
  cases h
  exact ⟨size, a, rs, pool, buckets, built, made, Nat.not_le.1 records_lt, Nat.not_le.1 strings_lt, rfl⟩

theorem laid_of_layout {d : Draft} {l : Layout} (h : d.layout = .ok l) :
    ∃ size rs, d.Laid l size rs := by
  obtain ⟨size, a, rs, pool, buckets, built, made, records_lt, strings_lt, rfl⟩ := layout_eq_ok h
  obtain ⟨sound, -, locates⟩ := records_locate Interner.sound_empty made
  rw [sound.size_eq] at strings_lt
  refine ⟨size, rs, buckets, Assignment.perfect_of_build built, rfl, locates, rfl, rfl, ?_,
    records_lt, strings_lt⟩
  rw [sound.size_eq]

end Draft

end ResourceArchive
