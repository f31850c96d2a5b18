import Std.Data.TreeSet.Basic
import ResourceArchive.Content
import ResourceArchive.Header
import ResourceArchive.Index.Tables
import ResourceArchive.Location

/-! Open containers. What is kept of a container is its index, which is fixed once it is open; content
    is read from what holds the container at the time, which is an argument of the reading functions.
    A container in memory is what it was when it was opened; a file may have changed since. -/

namespace ResourceArchive

structure Archive where
  order : ByteOrder
  header : Header
  tables : Tables
  /-- The location records, one after another. -/
  records : Content
  strings : Pool
  /-- Number of bytes that the container had when it was opened. -/
  length : Nat
  deriving DecidableEq, Repr

namespace Archive

/-! Opening -/

/-- Opens a container of `length` bytes, given its header and a content that begins with its index. -/
def ofIndex (o : ByteOrder) (h : Header) (index : Content) (length : Nat) :
    Except Error Archive := do
  let redirects := index.slice h.redirectOffset h.tableSize
  let offsets := index.slice h.offsetsOffset h.tableSize
  let tables ← Tables.ofContents redirects offsets h.bucketCount.toNat o
  return {
    order := o
    header := h
    tables := tables
    records := index.slice h.locationsOffset h.locationsSize.toNat
    strings := ⟨index.slice h.stringsOffset h.stringsSize.toNat⟩
    length := length }

/-- Opens a container in memory. -/
def ofBytes (o : ByteOrder) (data : Bytes) : Except Error Archive := do
  let h ← Header.parse data o
  if data.length < h.indexSize then throw (.corrupt .shorterThanIndex)
  ofIndex o h (.ofBytes data) data.length

/-- Opens a container in a file: reads enough of it for the header, then as much as the header says
    that the index takes up. -/
def ofFile (o : ByteOrder) (file : Content) : Except Error Archive := do
  let h ← Header.parse (file.range 0 Header.size) o
  if file.length < h.indexSize then throw (.corrupt .shorterThanIndex)
  ofIndex o h (file.slice 0 h.indexSize) file.length

/-! Looking up -/

def indexSize (a : Archive) : Nat := a.header.indexSize

def resourceCount (a : Archive) : Nat := a.header.resourceCount.toNat

def isEmpty (a : Archive) : Bool := a.resourceCount == 0

/-- The location whose record begins at an offset. -/
def locationAt (a : Archive) (offset : UInt32) : Except Error Location :=
  if a.records.length ≤ offset.toNat then .error (.corrupt .locationOutOfBounds)
  else Location.readAt a.records offset.toNat a.strings

/-- The location of a name. The record that the index leads to has to have exactly this name. -/
def find? (a : Archive) (name : String) : Except Error (Option Location) := do
  match ← a.tables.candidateOffset (utf8 name) with
  | none => return none
  | some offset =>
    let l ← a.locationAt offset
    return if l.name.accepts (utf8 name) then some l else none

/-- The location of a path within a module. -/
def findInModule? (a : Archive) (module path : String) : Except Error (Option Location) :=
  a.find? ("/" ++ module ++ "/" ++ path)

/-! Reading -/

/-- Whether a range of the content lies within the container as it was opened. -/
def holds (a : Archive) (offset size : UInt64) : Bool :=
  let stop := a.indexSize + offset.toNat + size.toNat
  stop ≤ a.length && stop < UInt64.size

/-- Reads a range of the content from what holds the container now. -/
def readContent (a : Archive) (file : Content) (offset size : UInt64) : Except Error Content :=
  if a.holds offset size then
    let content := file.slice (a.indexSize + offset.toNat) size.toNat
    if content.length = size.toNat then .ok content else .error (.io .unexpectedEnd)
  else .error (.contentOutOfRange offset size a.length)

/-- Reads the stored bytes of a resource. -/
def read (a : Archive) (file : Content) (l : Location) : Except Error Content :=
  a.readContent file l.contentOffset l.storedSize

/-- Reads the stored bytes of the resource with a name. -/
def readByName (a : Archive) (file : Content) (name : String) : Except Error Content := do
  match ← a.find? name with
  | some l => a.read file l
  | none => throw (.notFound name)

/-! Listing -/

/-- A place in the list of resources: where the next record begins, and how many are still due. -/
structure Cursor where
  position : Nat
  remaining : Nat
  deriving DecidableEq, Repr

/-- Before the first record. -/
def cursor (a : Archive) : Cursor := ⟨0, a.resourceCount⟩

/-- Reads a record. Nothing is due after one that cannot be read. -/
def next? (a : Archive) (c : Cursor) : Option (Except Error Location × Cursor) :=
  match c.remaining with
  | 0 => none
  | n + 1 =>
    match Record.readAt a.records c.position with
    | .error e => some (.error e, ⟨c.position, 0⟩)
    | .ok (record, position) =>
      match Location.resolve record a.strings with
      | .error e => some (.error e, ⟨position, 0⟩)
      | .ok l => some (.ok l, ⟨position, n⟩)

/-- At most `n` readings, each with the place before it. -/
def readingsFrom (a : Archive) : Nat → Cursor → List (Cursor × Except Error Location)
  | 0, _ => []
  | n + 1, c =>
    match a.next? c with
    | none => []
    | some (item, next) => (c, item) :: a.readingsFrom n next

/-- The readings of all records, in the order of the records. -/
def readings (a : Archive) : List (Cursor × Except Error Location) :=
  a.readingsFrom a.resourceCount a.cursor

/-- The locations of all resources. An error can only be the last. -/
def locations (a : Archive) : List (Except Error Location) := a.readings.map Prod.snd

/-- Goes through at most `n` locations, each of which changes a state, up to the first that cannot be
    read or used; the state is what it was before that. -/
def visitFrom {σ : Type} (a : Archive) (use : σ → Location → Except Error σ) :
    Nat → Cursor → σ → σ × Option Error
  | 0, _, state => (state, none)
  | n + 1, c, state =>
    match a.next? c with
    | none => (state, none)
    | some (item, next) =>
      match item.bind (use state) with
      | .error e => (state, some e)
      | .ok state => a.visitFrom use n next state

/-- Goes through all locations, in the order of the records. -/
def visit {σ : Type} (a : Archive) (use : σ → Location → Except Error σ) (state : σ) :
    σ × Option Error :=
  a.visitFrom use a.resourceCount a.cursor state

/-- What comes of going through all locations. -/
def fold {σ : Type} (a : Archive) (use : σ → Location → Except Error σ) (state : σ) :
    Except Error σ :=
  match a.visit use state with
  | (state, none) => .ok state
  | (_, some e) => .error e

/-- The names of all resources, in the order of the records. -/
def entryNames (a : Archive) : Except Error (List String) :=
  List.reverse <$> a.fold (fun names l => .ok (l.fullName :: names)) []

/-- The modules that have resources, in ascending order. -/
def moduleNames (a : Archive) : Except Error (List String) :=
  Std.TreeSet.toList <$> a.fold (fun modules l =>
    .ok (if l.name.module = "" then modules else modules.insert l.name.module))
    ({} : Std.TreeSet String)

/-- Checks that the index leads to a listed resource and that its content is there. -/
def check (a : Archive) (l : Location) : Except Error Unit := do
  if (← a.find? l.fullName) ≠ some l then throw (.corrupt .recordUnreachable)
  if !a.holds l.contentOffset l.storedSize then
    throw (.contentOutOfRange l.contentOffset l.storedSize a.length)

/-- Checks every resource, and counts them. -/
def verify (a : Archive) : Except Error Nat :=
  a.fold (fun count l => (a.check l).map fun _ => count + 1) 0

/-- Going through the locations is a fold over their list. -/
theorem visitFrom_eq {σ : Type} (a : Archive) (use : σ → Location → Except Error σ) (n : Nat)
    (c : Cursor) (state : σ) :
    (match a.visitFrom use n c state with
      | (state, none) => Except.ok state
      | (_, some e) => .error e)
    = ((a.readingsFrom n c).map Prod.snd).foldlM (fun state item => item.bind (use state)) state := by
  induction n generalizing c state with
  | zero => rfl
  | succ n ih =>
    rw [visitFrom, readingsFrom]
    rcases a.next? c with _ | ⟨item, next⟩
    · rfl
    · simp only [List.map_cons, List.foldlM_cons]
      rcases item.bind (use state) with e | state
      · rfl
      · exact ih next state

theorem fold_eq {σ : Type} (a : Archive) (use : σ → Location → Except Error σ) (state : σ) :
    a.fold use state
      = a.locations.foldlM (fun state item => item.bind (use state)) state :=
  visitFrom_eq ..

end Archive

end ResourceArchive
