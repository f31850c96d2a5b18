import Std.Data.TreeMap.Lemmas
import ResourceArchive.Header
import ResourceArchive.Index.Assignment
import ResourceArchive.Name
import ResourceArchive.Options
import ResourceArchive.Pool
import ResourceArchive.Record

/-! Drafts: containers that are being put together. A draft holds resources by name, and lays them out
    in the order of the names. Its layout is computed in full before the first byte is written, so a
    draft that cannot be laid out leaves its destination untouched. -/

namespace ResourceArchive

/-- The content of a resource that is to be stored. -/
inductive Payload where
  | plain (content : Content)
  /-- Bytes that were compressed elsewhere, and the size they had before. -/
  | compressed (content : Content) (uncompressedSize : UInt64)
  deriving DecidableEq, Repr

namespace Payload

/-- What goes into the container. -/
def stored : Payload → Content
  | plain content => content
  | compressed content _ => content

/-- Size of the stored bytes of a compressed resource; zero for any other. -/
def compressedSize : Payload → UInt64
  | plain _ => 0
  | compressed content _ => UInt64.ofNat content.length

def uncompressedSize : Payload → UInt64
  | plain content => UInt64.ofNat content.length
  | compressed _ size => size

/-- A compressed payload of no bytes could not be told from a plain one. -/
def isStorable : Payload → Bool
  | plain _ => true
  | compressed content _ => content.length != 0

end Payload

/-- Resources to be packed: payloads by name. Every name can be stored. -/
structure Draft where
  options : Options := {}
  payloads : Std.TreeMap String Payload := {}
  storable : ∀ name ∈ payloads, ∃ parts, NameParts.split name = .ok parts := by simp

namespace Draft

/-- A resource: its name and its payload. -/
abbrev Resource := String × Payload

/-- The resources in ascending order of their names. -/
def resources (d : Draft) : List Resource := d.payloads.toList

/-- Number of resources. -/
def size (d : Draft) : Nat := d.payloads.size

/-- Whether a name is taken. -/
def contains (d : Draft) (name : String) : Bool := d.payloads.contains name

/-- Adds a resource under a name that can be stored and is not taken: whether it was added, and the draft
    afterwards. -/
def insert (d : Draft) (name : String) (payload : Payload) : Except Error Unit × Draft :=
  if !payload.isStorable then (.error .emptyPayload, d)
  else match hsplit : NameParts.split name with
    | .error e => (.error e, d)
    | .ok parts =>
      if d.contains name then (.error (.duplicateName name), d)
      else (.ok (), {
        options := d.options
        payloads := d.payloads.insert name payload
        storable := by
          intro other h
          rcases Std.TreeMap.mem_insert.1 h with h | h
          · exact ⟨parts, Std.LawfulEqOrd.eq_of_compare h ▸ hsplit⟩
          · exact d.storable other h })

/-- The draft with a resource, unless the resource is refused. -/
def add (d : Draft) (name : String) (payload : Payload) : Except Error Draft :=
  Prod.snd <$> succeeded (d.insert name payload)

/-- The record of a resource whose content begins at `offset`, and the pool with its strings. -/
def record (pool : Interner) (offset : Nat) : Resource → Except Error (Record × Interner)
  | (name, payload) => do
    let parts ← NameParts.split name
    let (module, pool) ← pool.add parts.module
    let (parent, pool) ← pool.add parts.parent
    let (base, pool) ← pool.add parts.base
    let (extension, pool) ← pool.add parts.extension
    return ({
      module := UInt64.ofNat module
      parent := UInt64.ofNat parent
      base := UInt64.ofNat base
      extension := UInt64.ofNat extension
      contentOffset := UInt64.ofNat offset
      compressedSize := payload.compressedSize
      uncompressedSize := payload.uncompressedSize }, pool)

/-- The records of resources, and the pool with their strings. The first record begins at `start` of
    its region, and its content at `offset`. -/
def records (pool : Interner) (start offset : Nat) :
    List Resource → Except Error (List Record × Interner)
  | [] => .ok ([], pool)
  | resource :: rest => do
    let (first, pool) ← record pool offset resource
    if UInt32.size ≤ start then throw (.tooLarge .locationRecords)
    let (others, pool) ←
      records pool (start + first.encode.length) (offset + resource.2.stored.length) rest
    return (first :: others, pool)

/-- Where each of several byte strings begins when they follow one another from `offset` on. -/
def starts (offset : Nat) : List Bytes → List Nat
  | [] => []
  | bs :: rest => offset :: starts (offset + bs.length) rest

/-- A container before it is written: the regions of the index, and the contents. -/
structure Layout where
  header : Header
  assignment : Assignment
  /-- Where in its region each record begins. -/
  recordOffsets : List UInt32
  records : List Bytes
  strings : Bytes
  contents : List Content

namespace Layout

/-- Number of bytes of several contents. -/
def totalSize (contents : List Content) : Nat := contents.foldl (fun n c => n + c.length) 0

def contentSize (l : Layout) : Nat := totalSize l.contents

/-- Size of the container. -/
def size (l : Layout) : Nat := l.header.indexSize + l.contentSize

/-- The container in the pieces in which it is written: the header, the two tables, the records, the
    strings and the contents. -/
def pieces (l : Layout) (o : ByteOrder) : List Content :=
  .ofBytes (l.header.encode o) :: (l.assignment.redirectTable o).content
    :: (l.assignment.offsetTable l.recordOffsets o).content
    :: .ofBytes l.records.flatten :: .ofBytes l.strings :: l.contents

/-- The container. -/
def toContent (l : Layout) (o : ByteOrder) : Content := .join (l.pieces o)

end Layout

/-- Lays a draft out. -/
def layout (d : Draft) : Except Error Layout := do
  let bucketCount ← d.options.bucketCount d.size
  let names := d.resources.map fun (name, _) => utf8 name
  let assignment ← Assignment.build names bucketCount d.options.maxSeed
  let (records, pool) ← records {} 0 0 d.resources
  let records := records.map Record.encode
  let locationsSize := totalLength records
  if UInt32.size ≤ locationsSize then throw (.tooLarge .locationRecords)
  if UInt32.size ≤ pool.size then throw (.tooLarge .stringPool)
  return {
    header := .ofSizes (UInt32.ofNat d.size) (UInt32.ofNat bucketCount)
      (UInt32.ofNat locationsSize) (UInt32.ofNat pool.size)
    assignment := assignment
    recordOffsets := (starts 0 records).map UInt32.ofNat
    records := records
    strings := pool.bytes
    contents := d.resources.map fun (_, payload) => payload.stored }

/-- What the container holds. -/
def toContent (d : Draft) : Except Error Content := do
  return (← d.layout).toContent d.options.order

/-- The bytes of the container. -/
def toBytes (d : Draft) : Except Error Bytes := do
  return (← d.toContent).toBytes

/-- A destination that takes a number of bytes and then no more. -/
structure Sink where
  /-- Number of bytes that it still takes. -/
  room : Nat
  /-- What was written, the latest piece first. -/
  pieces : List Content := []
  deriving DecidableEq, Repr

/-- What a destination holds. -/
def Sink.held (s : Sink) : Content := .join s.pieces.reverse

/-- Writes what fits of a piece. -/
def Sink.write (s : Sink) (piece : Content) : Except SystemError Unit × Sink :=
  if piece.length ≤ s.room then (.ok (), ⟨s.room - piece.length, piece :: s.pieces⟩)
  else (.error .destinationFull, ⟨0, piece.slice 0 s.room :: s.pieces⟩)

/-- Writes pieces until one does not fit. -/
def Sink.writeAll (s : Sink) : List Content → Except SystemError Unit × Sink
  | [] => (.ok (), s)
  | piece :: rest =>
    match s.write piece with
    | (.ok (), s) => s.writeAll rest
    | (.error e, s) => (.error e, s)

/-- Writes the container to a destination, and says how many bytes it has. -/
def writeTo (d : Draft) (s : Sink) : Except Error Nat × Sink :=
  match d.layout with
  | .error e => (.error e, s)
  | .ok l =>
    match s.writeAll (l.pieces d.options.order) with
    | (.ok (), s) => (.ok l.size, s)
    | (.error e, s) => (.error (.io e), s)

end Draft

end ResourceArchive
