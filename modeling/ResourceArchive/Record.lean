import ResourceArchive.Content
import ResourceArchive.Varint

/-! Location records as they are stored: a run of attributes, each a tag byte and a number, closed
    by a tag of its own. An attribute that is absent is zero. -/

namespace ResourceArchive

/-- What a tag byte announces. -/
inductive Tag where
  /-- Closes the record. -/
  | stop
  | module
  | parent
  | base
  | extension
  | offset
  | compressed
  | uncompressed
  deriving DecidableEq, Repr

namespace Tag

def toByte : Tag → UInt8
  | stop => 0
  | module => 1
  | parent => 2
  | base => 3
  | extension => 4
  | offset => 5
  | compressed => 6
  | uncompressed => 7

def ofByte : UInt8 → Except Error Tag
  | 0 => .ok stop
  | 1 => .ok module
  | 2 => .ok parent
  | 3 => .ok base
  | 4 => .ok extension
  | 5 => .ok offset
  | 6 => .ok compressed
  | 7 => .ok uncompressed
  | b => .error (.unknownAttribute b)

theorem ofByte_toByte (t : Tag) : ofByte t.toByte = .ok t := by cases t <;> rfl

end Tag

/-- The numbers of a location record. The first four are offsets into the string pool. -/
structure Record where
  module : UInt64 := 0
  parent : UInt64 := 0
  base : UInt64 := 0
  extension : UInt64 := 0
  contentOffset : UInt64 := 0
  compressedSize : UInt64 := 0
  uncompressedSize : UInt64 := 0
  deriving DecidableEq, Repr, Inhabited

namespace Record

/-- The attributes in the order in which they are written. -/
def attributes (r : Record) : List (Tag × UInt64) :=
  [(.module, r.module), (.parent, r.parent), (.base, r.base), (.extension, r.extension),
    (.offset, r.contentOffset), (.compressed, r.compressedSize),
    (.uncompressed, r.uncompressedSize)]

/-- One attribute; zero is not written. -/
def encodeAttribute : Tag × UInt64 → Bytes
  | (tag, v) => if v = 0 then [] else tag.toByte :: Varint.encode v

/-- The bytes of a record. -/
def encode (r : Record) : Bytes := r.attributes.flatMap encodeAttribute ++ [Tag.stop.toByte]

/-- Gives an attribute a value. -/
def set (r : Record) (v : UInt64) : Tag → Record
  | .stop => r
  | .module => { r with module := v }
  | .parent => { r with parent := v }
  | .base => { r with base := v }
  | .extension => { r with extension := v }
  | .offset => { r with contentOffset := v }
  | .compressed => { r with compressedSize := v }
  | .uncompressed => { r with uncompressedSize := v }

/-! Reading -/

/-- Reads the attribute at the front of `data`; there is none where the record is closed. -/
def decodeAttribute (data : Bytes) : Except Error (Option (Tag × UInt64) × Bytes) :=
  match data with
  | [] => .error (.corrupt .recordTruncated)
  | b :: rest =>
    match Tag.ofByte b with
    | .error e => .error e
    | .ok .stop => .ok (none, rest)
    | .ok tag =>
      match Varint.read rest with
      | (.error e, _) => .error e
      | (.ok v, rest) => .ok (some (tag, v), rest)

theorem decodeAttribute_suffix {data rest : Bytes} {a : Option (Tag × UInt64)}
    (h : decodeAttribute data = .ok (a, rest)) : rest <:+ data ∧ rest.length < data.length := by
  cases data with
  | nil => cases h
  | cons b bs =>
    have shorter : bs.length < (b :: bs).length := Nat.lt_succ_self _
    have suffix := Varint.read_suffix bs
    simp only [decodeAttribute] at h
    split at h
    · cases h
    · cases h
      exact ⟨List.suffix_cons .., shorter⟩
    · split at h
      · cases h
      · next read =>
        cases h
        rw [read] at suffix
        exact ⟨suffix.trans (List.suffix_cons ..), Nat.lt_of_le_of_lt suffix.length_le shorter⟩

/-- Reads the attributes that remain and adds them to `r`; of a tag that comes twice the later value
    counts. -/
def decodeInto (r : Record) (data : Bytes) : Except Error (Record × Bytes) :=
  match _h : decodeAttribute data with
  | .error e => .error e
  | .ok (none, rest) => .ok (r, rest)
  | .ok (some (tag, v), rest) => decodeInto (r.set v tag) rest
termination_by data.length
decreasing_by exact (decodeAttribute_suffix _h).2

theorem decodeInto_error {data : Bytes} {e : Error} (h : decodeAttribute data = .error e)
    (r : Record) : decodeInto r data = .error e := by
  rw [decodeInto]; split <;> simp_all

theorem decodeInto_stop {data rest : Bytes} (h : decodeAttribute data = .ok (none, rest))
    (r : Record) : decodeInto r data = .ok (r, rest) := by
  rw [decodeInto]; split <;> simp_all

theorem decodeInto_step {data rest : Bytes} {tag : Tag} {v : UInt64}
    (h : decodeAttribute data = .ok (some (tag, v), rest)) (r : Record) :
    decodeInto r data = decodeInto (r.set v tag) rest := by
  rw [decodeInto]; split <;> simp_all

/-- Reads the record at the front of `data`, and returns the bytes after it. -/
def decode (data : Bytes) : Except Error (Record × Bytes) := decodeInto {} data

/-! Reading at a position of a content, a few bytes at a time -/

/-- Number of bytes that an attribute can take. -/
def maxAttributeLength : Nat := Varint.maxLength + 1

/-- Reads up to `count` attributes from a position on, and adds them to `r`. -/
def readInto (c : Content) (r : Record) (position : Nat) : Nat → Except Error (Record × Nat)
  | 0 => .error (.corrupt .recordTruncated)
  | count + 1 =>
    let window := c.range position maxAttributeLength
    match decodeAttribute window with
    | .error e => .error e
    | .ok (none, rest) => .ok (r, position + (window.length - rest.length))
    | .ok (some (tag, v), rest) =>
      readInto c (r.set v tag) (position + (window.length - rest.length)) count

/-- Reads the record at a position, and returns the position after it. -/
def readAt (c : Content) (position : Nat) : Except Error (Record × Nat) :=
  readInto c {} position (c.length - position + 1)

/-- Bytes behind the longest attribute change nothing. -/
theorem decodeAttribute_append (a b : Bytes) (h : maxAttributeLength ≤ a.length) :
    decodeAttribute (a ++ b) = (decodeAttribute a).map fun (x, rest) => (x, rest ++ b) := by
  cases a with
  | nil => simp [maxAttributeLength] at h
  | cons x a =>
    have h := Varint.read_append a b (by simpa [maxAttributeLength] using h)
    rw [List.cons_append, decodeAttribute, decodeAttribute]
    rcases Tag.ofByte x with e | tag
    · rfl
    · cases tag with
      | stop => rfl
      | _ => simp only [h]; rcases Varint.read a with ⟨_ | _, _⟩ <;> rfl

theorem decodeAttribute_range (c : Content) (position : Nat) :
    decodeAttribute (c.toBytes.drop position)
      = (decodeAttribute (c.range position maxAttributeLength)).map fun (x, rest) =>
          (x, rest ++ c.toBytes.drop (position + maxAttributeLength)) := by
  have parts := List.take_append_drop maxAttributeLength (c.toBytes.drop position)
  rw [List.drop_drop, ← Content.range_eq] at parts
  rcases Nat.lt_or_ge (c.range position maxAttributeLength).length maxAttributeLength with h | h
  · have : c.toBytes.drop (position + maxAttributeLength) = [] := by
      rw [Content.range_eq, List.length_take, List.length_drop] at h
      exact List.drop_of_length_le (by omega)
    rw [this] at parts ⊢
    rw [← parts]
    simp only [List.append_nil]
    rcases decodeAttribute _ with _ | _ <;> rfl
  · rw [← parts, decodeAttribute_append _ _ h]

theorem decodeAttribute_drop {c : Content} {position : Nat} {x : Option (Tag × UInt64)} {rest : Bytes}
    (h : decodeAttribute (c.range position maxAttributeLength) = .ok (x, rest)) :
    decodeAttribute (c.toBytes.drop position)
      = .ok (x, c.toBytes.drop
          (position + ((c.range position maxAttributeLength).length - rest.length))) := by
  have parts := List.take_append_drop maxAttributeLength (c.toBytes.drop position)
  rw [List.drop_drop, ← Content.range_eq] at parts
  have suffix := List.suffix_iff_eq_drop.1 (decodeAttribute_suffix h).1
  have shorter := Nat.sub_le (c.range position maxAttributeLength).length rest.length
  generalize (c.range position maxAttributeLength).length - rest.length = k at suffix shorter ⊢
  have later : c.toBytes.drop (position + k)
      = rest ++ c.toBytes.drop (position + maxAttributeLength) := by
    have h := congrArg (List.drop k) parts
    rw [List.drop_append_of_le_length shorter, ← suffix, List.drop_drop] at h
    exact h.symm
  rw [decodeAttribute_range, h, later]
  rfl

/-- Reading at a position is reading what the content holds from there on. -/
theorem readInto_eq (c : Content) (r : Record) (position count : Nat)
    (h : c.length - position < count) :
    readInto c r position count
      = (decodeInto r (c.toBytes.drop position)).map fun (r, rest) =>
          (r, c.length - rest.length) := by
  induction count generalizing r position with
  | zero => omega
  | succ count ih =>
    rw [readInto]
    rcases hread : decodeAttribute (c.range position maxAttributeLength) with e | ⟨x, rest⟩
    · rw [decodeInto_error (by rw [decodeAttribute_range, hread]; rfl)]
      rfl
    · have hdrop := decodeAttribute_drop hread
      have shorter := (decodeAttribute_suffix hdrop).2
      have inside := c.range_length position maxAttributeLength
      rw [List.length_drop, List.length_drop, Content.toBytes_length] at shorter
      rcases x with _ | ⟨tag, v⟩
      · rw [decodeInto_stop hdrop]
        simp only [Except.map, List.length_drop, Content.toBytes_length]
        congr 2
        omega
      · rw [decodeInto_step hdrop]
        exact ih _ _ (by omega)

theorem readAt_eq (c : Content) (position : Nat) :
    readAt c position
      = (decode (c.toBytes.drop position)).map fun (r, rest) => (r, c.length - rest.length) :=
  readInto_eq c {} position _ (Nat.lt_succ_self _)

end Record

end ResourceArchive
