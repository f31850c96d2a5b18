import ResourceArchive.Bytes

/-! What can go wrong. An error says its cause; its wording is one function of the cause. -/

namespace ResourceArchive

/-- A failure of the file system, or of a reader or writer on top of it. -/
inductive SystemError where
  | noSuchFile
  | fileExists
  | notADirectory
  | isADirectory
  | tooManyLinks
  | nameTooLong
  /-- A path with a byte that would end it early. -/
  | zeroInPath
  /-- A read that reached the end of the file. -/
  | unexpectedEnd
  /-- A write to a destination that takes no more. -/
  | destinationFull
  /-- Any other failure, in the system's words. -/
  | other (text : String)
  deriving DecidableEq, Repr

namespace SystemError

def message : SystemError → String
  | noSuchFile => "No such file or directory (os error 2)"
  | fileExists => "File exists (os error 17)"
  | notADirectory => "Not a directory (os error 20)"
  | isADirectory => "Is a directory (os error 21)"
  | tooManyLinks => "Too many levels of symbolic links (os error 40)"
  | nameTooLong => "File name too long (os error 36)"
  | zeroInPath => "file name contained an unexpected NUL byte"
  | unexpectedEnd => "failed to fill whole buffer"
  | destinationFull => "failed to write whole buffer"
  | other text => text

end SystemError

/-- The ways in which a container's bytes contradict each other. -/
inductive Corruption where
  | headerTruncated
  | moreResourcesThanBuckets
  | shorterThanIndex
  | tableSizeMismatch
  | redirectOutsideIndex
  | locationOutOfBounds
  | recordTruncated
  | varintOverflow
  | stringOutOfBounds
  | stringNotTerminated
  | stringNotText
  | recordUnreachable
  deriving DecidableEq, Repr

namespace Corruption

def message : Corruption → String
  | headerTruncated => "header is truncated"
  | moreResourcesThanBuckets => "more resources than index buckets"
  | shorterThanIndex => "container is shorter than its index"
  | tableSizeMismatch => "index table size mismatch"
  | redirectOutsideIndex => "redirect points outside of index"
  | locationOutOfBounds => "location offset out of bounds"
  | recordTruncated => "location record is truncated"
  | varintOverflow => "varint overflows 64 bits"
  | stringOutOfBounds => "string offset out of bounds"
  | stringNotTerminated => "string is not terminated"
  | stringNotText => "string is not valid UTF-8"
  | recordUnreachable => "record is not reachable through the index"

end Corruption

/-- What a container can have too much of. -/
inductive Quantity where
  | names
  | buckets
  | stringPool
  | locationRecords
  deriving DecidableEq, Repr

namespace Quantity

def message : Quantity → String
  | names => "more names than index buckets"
  | buckets => "index bucket count"
  | stringPool => "string pool"
  | locationRecords => "location records"

end Quantity

/-- Why a container cannot be built, opened or read. -/
inductive Error where
  | badMagic
  | wrongByteOrder
  | unsupportedVersion (major minor : UInt16)
  /-- A content range that does not lie within `length` bytes. -/
  | contentOutOfRange (offset size : UInt64) (length : Nat)
  | io (cause : SystemError)
  /-- An index entry asked for past the end of its table, at this byte. -/
  | badOffset (position : Nat)
  | corrupt (what : Corruption)
  | unknownAttribute (tag : UInt8)
  | invalidName (name : String)
  /-- A compressed resource without stored bytes. -/
  | emptyPayload
  | duplicateName (name : String)
  | tooLarge (what : Quantity)
  /-- A group of names that no seed spreads over free slots. -/
  | noSeed (bucket groupSize : Nat)
  | notFound (name : String)
  deriving DecidableEq, Repr

namespace Error

/-- Lower-case hexadecimal digits, without leading zeros. -/
def hex (n : Nat) : String := String.ofList (Nat.toDigits 16 n)

def message : Error → String
  | badMagic => "bad magic value encountered"
  | wrongByteOrder => "container byte order does not match the reader's byte order"
  | unsupportedVersion major minor =>
    "unsupported container version " ++ toString major ++ "." ++ toString minor
  | contentOutOfRange offset size length =>
    "content range " ++ toString offset ++ "+" ++ toString size ++ " exceeds container length "
      ++ toString length
  | io cause => "I/O error: " ++ cause.message
  | badOffset position => "(de)serialization error: bad offset " ++ toString position
  | corrupt what => "container is corrupted: " ++ what.message
  | unknownAttribute tag => "unknown location attribute tag: 0x" ++ hex tag.toNat
  | invalidName name => "resource name cannot be stored: " ++ name
  | emptyPayload => "invalid resource: compressed payload is empty"
  | duplicateName name => "resource name added more than once: " ++ name
  | tooLarge what => "container region too large: " ++ what.message
  | noSeed bucket groupSize =>
    "no seed resolves the " ++ toString groupSize ++ " names colliding in bucket "
      ++ toString bucket
  | notFound name => "resource not found: " ++ name

end Error

/-! Steps that may fail, one after another -/

section Steps

variable {α β : Type} {x : Except Error α} {f : α → Except Error β} {b : β} {e : Error}

theorem eq_ok_of_isOk (h : x.isOk) : ∃ a, x = .ok a := by
  cases x with
  | error e => cases h
  | ok a => exact ⟨a, rfl⟩

@[simp] theorem ok_bind (a : α) (f : α → Except Error β) : (Except.ok a >>= f) = f a := rfl

@[simp] theorem ok_map (a : α) (f : α → β) : f <$> (Except.ok a : Except Error α) = .ok (f a) := rfl

/-- Two steps succeed if the first does, and then the second. -/
theorem bind_eq_ok : (x >>= f) = .ok b ↔ ∃ a, x = .ok a ∧ f a = .ok b := by
  constructor
  · intro h
    cases x with
    | error e => cases h
    | ok a => exact ⟨a, rfl, h⟩
  · rintro ⟨a, rfl, h⟩
    exact h

/-- Two steps fail where the first does, or else the second. -/
theorem bind_eq_error : (x >>= f) = .error e ↔ x = .error e ∨ ∃ a, x = .ok a ∧ f a = .error e := by
  constructor
  · intro h
    cases x with
    | error e' => cases h; exact .inl rfl
    | ok a => exact .inr ⟨a, rfl, h⟩
  · rintro (rfl | ⟨a, rfl, h⟩)
    · rfl
    · exact h

end Steps

/-! Calls on a state. A call returns a value or fails, and leaves a state in either case. -/

section Calls

variable {σ α : Type} {x : Except Error α × σ} {a : α} {s : σ} {e : Error}

/-- What a call returned and the state it left, for whoever goes on only if it succeeded. -/
def succeeded : Except Error α × σ → Except Error (α × σ)
  | (.ok a, s) => .ok (a, s)
  | (.error e, _) => .error e

theorem succeeded_eq_ok : succeeded x = .ok (a, s) ↔ x = (.ok a, s) := by
  obtain ⟨e | b, t⟩ := x <;> simp [succeeded]

theorem succeeded_eq_error : succeeded x = .error e ↔ x.1 = .error e := by
  obtain ⟨e | b, t⟩ := x <;> simp [succeeded]

end Calls

end ResourceArchive
