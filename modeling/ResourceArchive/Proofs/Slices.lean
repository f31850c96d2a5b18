import ResourceArchive.Proofs.Find

/-! Reading by slices. Every operation on an open container is given here once more, on the bytes of the
    container and the header alone: it takes the slices that it needs, and gets stuck where one of them
    reaches past what it is taken from, where the end of one is no 64-bit word, or where one has not the
    length of the buffer it is copied to. The main statement is that no operation gets stuck, whatever
    the bytes are, and that each comes to what the archive of these bytes gives. -/

namespace ResourceArchive

/-- A computation that may fail, and that is `none` where it gets stuck. -/
abbrev Sliced := ExceptT Error Option

namespace Sliced

variable {α β : Type}

/-- A computation that does not get stuck. -/
def done (x : Except Error α) : Sliced α := ExceptT.mk (some x)

def stuck : Sliced α := ExceptT.mk none

@[simp] theorem done_bind (x : Except Error α) (f : α → Except Error β) :
    (done x >>= fun a => done (f a)) = done (x >>= f) := by
  cases x <;> rfl

@[simp] theorem done_ok_bind (a : α) (f : α → Sliced β) : (done (.ok a) >>= f) = f a := rfl

@[simp] theorem done_map (x : Except Error α) (f : α → β) : f <$> done x = done (f <$> x) := by
  cases x <;> rfl

/-- The bytes from `start` up to `stop`. -/
def cut (c : Content) (start stop : Nat) : Sliced Content :=
  if start ≤ stop ∧ stop ≤ c.length then done (.ok (c.slice start (stop - start))) else stuck

/-- A stretch of a content, whose end is computed as a 64-bit word. -/
def region (c : Content) (offset size : Nat) : Sliced Content :=
  if offset + size < UInt64.size then cut c offset (offset + size) else stuck

theorem cut_eq {c : Content} {start stop : Nat} (order : start ≤ stop) (inside : stop ≤ c.length) :
    cut c start stop = done (.ok (c.slice start (stop - start))) :=
  if_pos ⟨order, inside⟩

theorem region_eq {c : Content} {offset size : Nat} (inside : offset + size ≤ c.length)
    (word : offset + size < UInt64.size) : region c offset size = done (.ok (c.slice offset size)) := by
  rw [region, if_pos word, cut_eq (Nat.le_add_right ..) inside, Nat.add_sub_cancel_left]

/-- The string of a pool that begins at an offset. -/
def bytesAt (pool : Content) (offset : UInt64) : Sliced Bytes :=
  if pool.length ≤ offset.toNat then done (.error (.corrupt .stringOutOfBounds))
  else do
    let remaining ← cut pool offset.toNat pool.length
    match remaining.toBytes.findIdx? (· == 0) with
    | none => done (.error (.corrupt .stringNotTerminated))
    | some stop => return (← cut remaining 0 stop).toBytes

def textAt (pool : Content) (offset : UInt64) : Sliced String := do
  match text? (← bytesAt pool offset) with
  | some s => done (.ok s)
  | none => done (.error (.corrupt .stringNotText))

def resolve (record : Record) (pool : Content) : Sliced Location := do
  let module ← textAt pool record.module
  let parent ← textAt pool record.parent
  let base ← textAt pool record.base
  let extension ← textAt pool record.extension
  return {
    name := ⟨module, parent, base, extension⟩
    contentOffset := record.contentOffset
    compressedSize := record.compressedSize
    uncompressedSize := record.uncompressedSize }

/-- The location whose record begins at a position, and the position after it. Within a record no
    slices are taken: each byte is asked for, and may be missing. -/
def next (records pool : Content) (position : Nat) : Sliced (Location × Nat) := do
  let remaining ← cut records (min position records.length) records.length
  let (record, rest) ← done (Record.decode remaining.toBytes)
  let l ← resolve record pool
  return (l, position + (remaining.length - rest.length))

/-- The locations of up to `n` records, up to the first that cannot be read. -/
def locationsFrom (records pool : Content) : Nat → Nat → Option (List (Except Error Location))
  | 0, _ => some []
  | n + 1, position =>
    match (next records pool position).run with
    | none => none
    | some (.error e) => some [.error e]
    | some (.ok (l, position)) => (.ok l :: ·) <$> locationsFrom records pool n position

end Sliced

/-- An open container, of whose index only the header is kept. -/
structure Container where
  order : ByteOrder
  header : Header
  content : Content

namespace Container

open Sliced

/-- Opens a container in memory. Nothing but its header is looked at. -/
def ofBytes (o : ByteOrder) (data : Bytes) : Except Error Container := do
  let h ← Header.parse data o
  if data.length < h.indexSize then throw (.corrupt .shorterThanIndex)
  return ⟨o, h, .ofBytes data⟩

def tables (c : Container) : Sliced Tables := do
  let redirects ← region c.content c.header.redirectOffset c.header.tableSize
  let offsets ← region c.content c.header.offsetsOffset c.header.tableSize
  done (Tables.ofContents redirects offsets c.header.bucketCount.toNat c.order)

def records (c : Container) : Sliced Content :=
  region c.content c.header.locationsOffset c.header.locationsSize.toNat

def strings (c : Container) : Sliced Content :=
  region c.content c.header.stringsOffset c.header.stringsSize.toNat

def locationAt (c : Container) (offset : UInt32) : Sliced Location := do
  let records ← c.records
  if records.length ≤ offset.toNat then done (.error (.corrupt .locationOutOfBounds))
  else do
    let remaining ← cut records offset.toNat records.length
    let pool ← c.strings
    let (record, _) ← done (Record.decode remaining.toBytes)
    resolve record pool

def find? (c : Container) (name : String) : Sliced (Option Location) := do
  let tables ← c.tables
  match ← done (tables.candidateOffset (utf8 name)) with
  | none => return none
  | some offset =>
    let l ← c.locationAt offset
    return if l.name.accepts (utf8 name) then some l else none

/-- Whether a range of the content lies within the container. -/
def holds (c : Container) (offset size : UInt64) : Bool :=
  let stop := c.header.indexSize + offset.toNat + size.toNat
  stop ≤ c.content.length && stop < UInt64.size

def readContent (c : Container) (offset size : UInt64) : Sliced Content :=
  if c.holds offset size then do
    let content ← region c.content (c.header.indexSize + offset.toNat) size.toNat
    if content.length = size.toNat then done (.ok content) else stuck
  else done (.error (.contentOutOfRange offset size c.content.length))

def locations (c : Container) : Sliced (List (Except Error Location)) := do
  let records ← c.records
  let pool ← c.strings
  ExceptT.lift (locationsFrom records pool c.header.resourceCount.toNat 0)

/-- Goes through all locations, up to the first that cannot be read or used. -/
def fold {σ : Type} (c : Container) (use : σ → Location → Sliced σ) (state : σ) : Sliced σ := do
  (← c.locations).foldlM (fun state item => done item >>= use state) state

def entryNames (c : Container) : Sliced (List String) :=
  List.reverse <$> c.fold (fun names l => pure (l.fullName :: names)) []

def moduleNames (c : Container) : Sliced (List String) :=
  Std.TreeSet.toList <$> c.fold (fun modules l =>
    pure (if l.name.module = "" then modules else modules.insert l.name.module))
    ({} : Std.TreeSet String)

def check (c : Container) (l : Location) : Sliced Unit := do
  if (← c.find? l.fullName) ≠ some l then done (.error (.corrupt .recordUnreachable))
  else if !c.holds l.contentOffset l.storedSize then
    done (.error (.contentOutOfRange l.contentOffset l.storedSize c.content.length))

def verify (c : Container) : Sliced Nat :=
  c.fold (fun count l => (fun _ => count + 1) <$> c.check l) 0

end Container

end ResourceArchive
