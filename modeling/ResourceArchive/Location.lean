import ResourceArchive.Name
import ResourceArchive.Pool
import ResourceArchive.Record

/-! Locations: what a record says about a resource once its strings are looked up. -/

namespace ResourceArchive

/-- The name of a resource, and where its bytes are. -/
structure Location where
  name : NameParts
  /-- First byte of the content, counted from the end of the index. -/
  contentOffset : UInt64
  /-- Number of bytes stored for a compressed resource; zero for any other. -/
  compressedSize : UInt64
  /-- Number of bytes of the resource itself. -/
  uncompressedSize : UInt64
  deriving DecidableEq, Repr, Inhabited

namespace Location

/-- Looks the strings of a record up. -/
def resolve (record : Record) (pool : Pool) : Except Error Location := do
  let module ← pool.textAt record.module
  let parent ← pool.textAt record.parent
  let base ← pool.textAt record.base
  let extension ← pool.textAt record.extension
  return {
    name := ⟨module, parent, base, extension⟩
    contentOffset := record.contentOffset
    compressedSize := record.compressedSize
    uncompressedSize := record.uncompressedSize }

/-- Reads the record at the front of `data` and looks its strings up. -/
def decode (data : Bytes) (pool : Pool) : Except Error Location := do
  let (record, _) ← Record.decode data
  resolve record pool

/-- Reads the record at a position of a content and looks its strings up. -/
def readAt (c : Content) (position : Nat) (pool : Pool) : Except Error Location := do
  let (record, _) ← Record.readAt c position
  resolve record pool

def fullName (l : Location) : String := l.name.fullName

def isCompressed (l : Location) : Bool := l.compressedSize != 0

/-- Number of bytes that the resource takes up in the container. -/
def storedSize (l : Location) : UInt64 :=
  if l.isCompressed then l.compressedSize else l.uncompressedSize

theorem readAt_eq (c : Content) (position : Nat) (pool : Pool) :
    readAt c position pool = decode (c.toBytes.drop position) pool := by
  rw [readAt, decode, Record.readAt_eq]
  rcases Record.decode _ with _ | _ <;> rfl

end Location

end ResourceArchive
