import Mathlib.Data.List.Sort
import ResourceArchive.Proofs.RoundTrip

/-! Drafts as lists of items. An item is what a resource is, apart from the runs that its content is kept
    in. The container depends on the items alone, and it can be built only from them: names, sizes and
    the bounds of each content are all read back. -/

namespace ResourceArchive

namespace Payload

/-- Whether the stored bytes were compressed. -/
def isCompressed : Payload → Bool
  | plain _ => false
  | compressed .. => true

theorem compressedSize_eq (p : Payload) :
    p.compressedSize = if p.isCompressed then UInt64.ofNat p.stored.toBytes.length else 0 := by
  cases p with
  | plain content => rfl
  | compressed content before =>
    rw [Content.toBytes_length]
    rfl

/-- A compressed payload has a compressed size, since it is not empty. -/
theorem isCompressed_eq {p : Payload} (storable : p.isStorable)
    (short : p.stored.length < UInt64.size) : p.isCompressed = (p.compressedSize != 0) := by
  cases p with
  | plain content => rfl
  | compressed content before =>
    have word : (UInt64.ofNat content.length).toNat = content.length :=
      UInt64.toNat_ofNat_of_lt' short
    refine (bne_iff_ne.2 fun none => bne_iff_ne.1 storable ?_).symm
    rw [← word, show UInt64.ofNat content.length = 0 from none]
    rfl

end Payload

namespace Draft

/-- What a resource is: its name, its stored bytes, whether they were compressed, and its size before
    that. -/
structure Item where
  name : String
  bytes : Bytes
  isCompressed : Bool
  uncompressedSize : UInt64
  deriving DecidableEq

def item (resource : Resource) : Item where
  name := resource.1
  bytes := resource.2.stored.toBytes
  isCompressed := resource.2.isCompressed
  uncompressedSize := resource.2.uncompressedSize

/-- What a draft holds, in the order of the names. -/
def items (d : Draft) : List Item := d.resources.map item

variable {d d' : Draft} {data : Bytes}

/-- A list of items in order is determined by its members. -/
theorem items_eq_of_mem_iff (same : ∀ x, x ∈ d.items ↔ x ∈ d'.items) : d.items = d'.items := by
  have ascending (d : Draft) : d.items.Pairwise fun x y => utf8 x.name < utf8 y.name :=
    List.pairwise_map.2 resources_ascending
  have _ : Std.Irrefl fun x y : Item => utf8 x.name < utf8 y.name := ⟨fun x => List.lt_irrefl _⟩
  have _ : Std.Antisymm fun x y : Item => utf8 x.name < utf8 y.name :=
    ⟨fun x y less more => absurd (List.lt_trans less more) (List.lt_irrefl _)⟩
  exact List.Pairwise.eq_of_mem_iff (ascending d) (ascending d') same

/-! ### From items to bytes -/

theorem record_congr (pool : Interner) (offset : Nat) {r s : Resource} (same : item r = item s) :
    record pool offset r = record pool offset s := by
  obtain ⟨name, p⟩ := r
  obtain ⟨name', q⟩ := s
  obtain ⟨rfl, bytes, compressed, size⟩ := Item.mk.inj same
  have compressedSize : p.compressedSize = q.compressedSize := by
    rw [p.compressedSize_eq, q.compressedSize_eq]
    rw [show p.stored.toBytes = q.stored.toBytes from bytes,
      show p.isCompressed = q.isCompressed from compressed]
  have size : p.uncompressedSize = q.uncompressedSize := size
  simp only [record, compressedSize, size]

theorem records_congr {rs ss : List Resource} (same : rs.map item = ss.map item) (pool : Interner)
    (start offset : Nat) : records pool start offset rs = records pool start offset ss := by
  induction rs generalizing ss pool start offset with
  | nil =>
    obtain rfl := List.map_eq_nil_iff.1 same.symm
    rfl
  | cons r rs ih =>
    obtain ⟨s, ss, rfl, first, others⟩ := List.map_eq_cons_iff.1 same.symm
    have length : r.2.stored.length = s.2.stored.length := by
      rw [← Content.toBytes_length, ← Content.toBytes_length]
      exact congrArg (·.bytes.length) first.symm
    rw [records, records, record_congr _ _ first.symm, length]
    simp only [ih others.symm]

/-- What depends on the item of a resource is the same for all resources of two drafts with the same
    items. -/
theorem map_resources_congr {β : Type} {f : Resource → β} {g : Item → β} (same : d.items = d'.items)
    (factors : ∀ r, f r = g (item r)) : d.resources.map f = d'.resources.map f := by
  have images (d : Draft) : d.resources.map f = d.items.map g := by
    rw [items, List.map_map]
    exact List.map_congr_left fun r _ => factors r
  rw [images, images, same]

/-- The container depends on the items alone. -/
theorem toBytes_congr (options : d.options = d'.options) (same : d.items = d'.items) :
    d.toBytes = d'.toBytes := by
  have size : d.size = d'.size := by
    rw [← resources_length, ← resources_length, ← List.length_map item, ← List.length_map item]
    exact congrArg List.length same
  have records := records_congr same {} 0 0
  unfold toBytes toContent layout
  rw [options, size, map_resources_congr (g := fun x => utf8 x.name) same fun r => ?names, records]
  case names => rfl
  rcases d'.options.bucketCount d'.size with e | buckets
  · rfl
  simp only [ok_bind]
  generalize List.map _ d'.resources = names
  rcases Assignment.build _ buckets d'.options.maxSeed with e | a
  · rfl
  rcases Draft.records {} 0 0 d'.resources with e | ⟨rs, pool⟩
  · rfl
  simp only [ok_bind]
  split
  · rfl
  split
  · rfl
  simp only [pure, Except.pure, ok_bind, Layout.toBytes_toContent, List.flatMap_map]
  rw [List.flatMap_def, List.flatMap_def, map_resources_congr (g := Item.bytes) same fun r => ?bytes]
  case bytes => rfl

/-! ### From bytes to items -/

/-- What a container says of the resource at a location. -/
def itemAt (a : Archive) (data : Bytes) (l : Location) : Item where
  name := l.fullName
  bytes := (data.drop (a.indexSize + l.contentOffset.toNat)).take l.storedSize.toNat
  isCompressed := l.isCompressed
  uncompressedSize := l.uncompressedSize

variable {o : ByteOrder} {a : Archive} {l : Layout} {size : Nat} {rs : List Record}

/-- The items are read back from the container. -/
theorem Laid.items_eq (laid : d.Laid l size rs) (packed : d.Packed o data a l)
    (word : data.length < UInt64.size) (storable : ∀ r ∈ d.resources, r.2.isStorable) :
    d.items = (locations 0 d.resources).map (itemAt a data) := by
  refine List.ext_getElem (by simp only [items, List.length_map, locations_length]) ?_
  intro i hi hi'
  have place : i < d.resources.length := by rwa [items, List.length_map] at hi
  have listed := getElem?_locations 0 d.resources place
  rw [Nat.zero_add, ← locationOf] at listed
  have bytes := (laid.content_at packed word place (storable _ (List.getElem_mem place))).2
  have short : d.resources[i].2.stored.length < UInt64.size := by
    rw [← Content.toBytes_length, ← bytes, List.length_take, List.length_drop]
    omega
  have compressed : d.resources[i].2.isCompressed = (d.locationOf i place).isCompressed :=
    Payload.isCompressed_eq (storable _ (List.getElem_mem place)) short
  obtain ⟨_, there⟩ := List.getElem?_eq_some_iff.1 listed
  rw [List.getElem_map, there]
  simp only [items, List.getElem_map, item, itemAt, fullName_locationOf, bytes, compressed]
  rfl

/-- One container has one list of items. -/
theorem items_eq_of_toBytes_eq (order : d.options.order = d'.options.order)
    (word : data.length < UInt64.size) (storable : ∀ r ∈ d.resources, r.2.isStorable)
    (storable' : ∀ r ∈ d'.resources, r.2.isStorable) (built : d.toBytes = .ok data)
    (built' : d'.toBytes = .ok data) : d.items = d'.items := by
  obtain ⟨a, l, size, rs, laid, packed⟩ := packed_of_toBytes built
  obtain ⟨a', l', size', rs', laid', packed'⟩ := packed_of_toBytes built'
  have opened := Archive.ofBytes_eq_ok.2 packed.opened
  rw [order, Archive.ofBytes_eq_ok.2 packed'.opened] at opened
  obtain rfl : a' = a := Except.ok.inj opened
  have listed : (locations 0 d.resources).map Except.ok = (locations 0 d'.resources).map Except.ok :=
    (laid.locations_eq packed).symm.trans (laid'.locations_eq packed')
  have listed := List.map_injective_iff.2 (fun _ _ h => Except.ok.inj h) listed
  rw [laid.items_eq packed word storable, laid'.items_eq packed' word storable', listed]

end Draft

end ResourceArchive
