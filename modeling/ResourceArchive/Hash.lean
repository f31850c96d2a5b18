import ResourceArchive.Bytes

/-! The hash that spreads names over index slots. The bytes are folded into a seeded state by a
    multiplication and an exclusive or; a finalizer then carries every bit of the state into the
    low bits, so that a new seed can send a name to any slot, also in a table of `2 ^ k` slots. -/

namespace ResourceArchive.Hash

/-- Multiplier of the fold, and the seed of the primary hash. -/
def multiplier : UInt32 := 0x01000193

/-- Folds a name into a state. -/
def absorb (state : UInt32) : Bytes → UInt32
  | [] => state
  | b :: bs => absorb (state * multiplier ^^^ b.toUInt32) bs

/-- Mixes the high bits of a state into the low ones. -/
def finalize (state : UInt32) : UInt32 :=
  let state := state ^^^ (state >>> 16)
  let state := state * 0x85EBCA6B
  let state := state ^^^ (state >>> 13)
  let state := state * 0xC2B2AE35
  state ^^^ (state >>> 16)

/-- The seeded hash of a name, a value of 31 bits. -/
def code (name : Bytes) (seed : UInt32) : UInt32 :=
  finalize (absorb seed name) &&& 0x7FFFFFFF

/-- The hash that chooses the bucket of a name. -/
def primary (name : Bytes) : UInt32 := code name multiplier

/-- The bucket of a name among `length` buckets. -/
def bucket (name : Bytes) (length : Nat) : Nat := (primary name).toNat % length

/-- The slot, among `length`, to which a seed sends a name. -/
def slot (name : Bytes) (seed : UInt32) (length : Nat) : Nat := (code name seed).toNat % length

theorem absorb_append (state : UInt32) (a b : Bytes) :
    absorb state (a ++ b) = absorb (absorb state a) b := by
  induction a generalizing state with
  | nil => rfl
  | cons x a ih => exact ih _

theorem bucket_lt (name : Bytes) {length : Nat} (h : 0 < length) : bucket name length < length :=
  Nat.mod_lt _ h

theorem slot_lt (name : Bytes) (seed : UInt32) {length : Nat} (h : 0 < length) :
    slot name seed length < length :=
  Nat.mod_lt _ h

end ResourceArchive.Hash
