import ResourceArchive.Error
import ResourceArchive.Hash
import ResourceArchive.Index.Words

/-! The index of a container: a redirect table with one entry per bucket, and an offset table with one
    entry per slot. Looking a name up is a computation on these two tables; what it finds is only a
    candidate, since a name that was never indexed finds some slot as well. -/

namespace ResourceArchive

/-- The most buckets that a container can have, since a redirect names a slot by a signed word. -/
def maxBuckets : Nat := 0x7FFFFFFF

/-- What the redirect table says about the names of a bucket. As a signed word it is zero, a negative
    number that counts slots down from -1, or a positive seed. -/
inductive Redirect where
  /-- No name has this bucket. -/
  | empty
  /-- One name has this bucket, and this slot. -/
  | direct (slot : Nat)
  /-- Several names have this bucket; the seed sends each to its slot. -/
  | seeded (seed : Nat)
  deriving DecidableEq, Repr, Inhabited

namespace Redirect

/-- The signed word of an entry. -/
def toInt : Redirect → Int
  | empty => 0
  | direct slot => -slot - 1
  | seeded seed => seed

/-- The entry with a signed word. -/
def ofInt (v : Int) : Redirect :=
  if v = 0 then empty else if v < 0 then direct (-v - 1).toNat else seeded v.toNat

def toWord (r : Redirect) : UInt32 := (Int32.ofInt r.toInt).toUInt32

def ofWord (w : UInt32) : Redirect := ofInt w.toInt32.toInt

/-- The slot to which an entry sends a name, among `length` slots. -/
def slot? (r : Redirect) (name : Bytes) (length : Nat) : Option Nat :=
  match r with
  | empty => none
  | direct slot => some slot
  | seeded seed => some (Hash.slot name (UInt32.ofNat seed) length)

end Redirect

/-- The two tables of an index. -/
structure Tables where
  /-- Number of buckets, which is also the number of slots. -/
  size : Nat
  redirects : WordTable
  offsets : WordTable
  deriving DecidableEq, Repr, Inhabited

namespace Tables

/-- Takes the two tables as they are stored, each of exactly `size` entries. -/
def ofContents (redirects offsets : Content) (size : Nat) (o : ByteOrder) : Except Error Tables :=
  if redirects.length = 4 * size ∧ offsets.length = 4 * size then
    .ok ⟨size, ⟨o, redirects⟩, ⟨o, offsets⟩⟩
  else .error (.corrupt .tableSizeMismatch)

/-- The redirect of a bucket. -/
def redirect (t : Tables) (bucket : Nat) : Except Error Redirect :=
  match t.redirects.get? bucket with
  | some w => .ok (.ofWord w)
  | none => .error (.badOffset (4 * bucket))

/-- The record offset in a slot. -/
def offset (t : Tables) (slot : Nat) : Except Error UInt32 :=
  match t.offsets.get? slot with
  | some offset => .ok offset
  | none => .error (.badOffset (4 * slot))

/-- The slot that a name would have, if its bucket is in use. -/
def candidateSlot (t : Tables) (name : Bytes) : Except Error (Option Nat) :=
  if t.size = 0 then .ok none
  else do
    let r ← t.redirect (Hash.bucket name t.size)
    match r.slot? name t.size with
    | none => return none
    | some slot =>
      if slot < t.size then return some slot else throw (.corrupt .redirectOutsideIndex)

/-- The offset of the record that a name would have, if its bucket is in use. -/
def candidateOffset (t : Tables) (name : Bytes) : Except Error (Option UInt32) := do
  match ← t.candidateSlot name with
  | none => return none
  | some slot => some <$> t.offset slot

end Tables

end ResourceArchive
