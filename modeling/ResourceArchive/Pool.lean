import Std.Data.TreeMap.Basic
import ResourceArchive.Content
import ResourceArchive.Error
import ResourceArchive.Text

/-! The string pool. Each distinct string is stored once, as UTF-8 closed by a NUL, and is referred to
    by the offset of its first byte. The empty string is at offset 0. -/

namespace ResourceArchive

/-- A string pool that is read. -/
structure Pool where
  content : Content
  deriving DecidableEq, Repr, Inhabited

namespace Pool

def ofBytes (bs : Bytes) : Pool := ⟨.ofBytes bs⟩

def size (pool : Pool) : Nat := pool.content.length

/-- The string that begins at an offset, without its closing NUL. -/
def bytesAt (pool : Pool) (offset : UInt64) : Except Error Bytes :=
  if pool.size ≤ offset.toNat then .error (.corrupt .stringOutOfBounds)
  else match pool.content.beforeZero? offset.toNat with
    | some bs => .ok bs
    | none => .error (.corrupt .stringNotTerminated)

/-- The string that begins at an offset, as text. -/
def textAt (pool : Pool) (offset : UInt64) : Except Error String := do
  match text? (← pool.bytesAt offset) with
  | some s => .ok s
  | none => .error (.corrupt .stringNotText)

/-- What is found depends only on the bytes from the offset on. -/
theorem bytesAt_eq (pool : Pool) (offset : UInt64) :
    pool.bytesAt offset =
      match pool.content.toBytes.drop offset.toNat with
      | [] => .error (.corrupt .stringOutOfBounds)
      | b :: rest =>
        if 0 ∈ b :: rest then .ok ((b :: rest).takeWhile (· != 0))
        else .error (.corrupt .stringNotTerminated) := by
  rw [bytesAt, size, ← Content.toBytes_length, Content.beforeZero?_eq]
  split
  · next h => rw [List.drop_of_length_le h]
  · next h =>
    rcases hs : pool.content.toBytes.drop offset.toNat with _ | ⟨b, rest⟩
    · exact absurd (List.drop_eq_nil_iff.1 hs) h
    · by_cases h0 : 0 ∈ b :: rest <;> simp only [h0, if_true, if_false]

end Pool

/-- A string pool that is written: the distinct strings in the order in which they came, where each
    begins, and the size of the pool. -/
structure Interner where
  strings : Array String := #[]
  offsets : Std.TreeMap String Nat := {("", 0)}
  size : Nat := 1

namespace Interner

/-- How a string is stored. -/
def stored (s : String) : Bytes := utf8 s ++ [0]

/-- The pool with a string behind those that it has. -/
def push (pool : Interner) (s : String) : Interner where
  strings := pool.strings.push s
  offsets := pool.offsets.insert s pool.size
  size := pool.size + (stored s).length

/-- Adds a string unless it is there: its offset, and the pool afterwards. -/
def intern (pool : Interner) (s : String) : Except Error Nat × Interner :=
  match pool.offsets[s]? with
  | some offset => (.ok offset, pool)
  | none =>
    if 0 ∈ utf8 s then (.error (.invalidName s), pool)
    else if UInt32.size ≤ pool.size then (.error (.tooLarge .stringPool), pool)
    else (.ok pool.size, pool.push s)

/-- Offset of a string in the pool that has it, unless the string is refused. -/
def add (pool : Interner) (s : String) : Except Error (Nat × Interner) := succeeded (pool.intern s)

/-- The bytes of the pool. -/
def bytes (pool : Interner) : Bytes := 0 :: pool.strings.toList.flatMap stored

end Interner

end ResourceArchive
