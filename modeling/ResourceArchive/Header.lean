import ResourceArchive.Error

/-! The header of a container: 32 bytes that give the size of every region of the index. The regions
    follow one another without gaps, so the sizes also give the offsets. -/

namespace ResourceArchive

structure Header where
  magic : UInt32
  majorVersion : UInt16
  minorVersion : UInt16
  /-- Without meaning yet, and zero. -/
  flags : UInt32
  /-- Number of location records. -/
  resourceCount : UInt32
  /-- Number of entries in each of the two index tables. -/
  bucketCount : UInt32
  /-- Size of the location records in bytes. -/
  locationsSize : UInt32
  /-- Size of the string pool in bytes. -/
  stringsSize : UInt32
  /-- Without meaning yet, and zero. -/
  reserved : UInt32
  deriving DecidableEq, Repr, Inhabited

namespace Header

/-- The first word of every container. -/
def magicWord : UInt32 := 0xCAFEDADA

/-- The newest version that is read, which is also the one that is written. -/
def newestMajor : UInt16 := 1
def newestMinor : UInt16 := 0

/-- Size of a header in bytes. -/
def size : Nat := 32

/-- The header of a container of the newest version. -/
def ofSizes (resourceCount bucketCount locationsSize stringsSize : UInt32) : Header where
  magic := magicWord
  majorVersion := newestMajor
  minorVersion := newestMinor
  flags := 0
  resourceCount := resourceCount
  bucketCount := bucketCount
  locationsSize := locationsSize
  stringsSize := stringsSize
  reserved := 0

/-! Layout -/

/-- Size in bytes of each of the two index tables. -/
def tableSize (h : Header) : Nat := 4 * h.bucketCount.toNat

def redirectOffset (_ : Header) : Nat := size
def offsetsOffset (h : Header) : Nat := h.redirectOffset + h.tableSize
def locationsOffset (h : Header) : Nat := h.offsetsOffset + h.tableSize
def stringsOffset (h : Header) : Nat := h.locationsOffset + h.locationsSize.toNat

/-- Size in bytes of the header and the index. The content begins here. -/
def indexSize (h : Header) : Nat := h.stringsOffset + h.stringsSize.toNat

/-! Reading and writing -/

/-- Refuses versions from the future, and more resources than the tables can hold. -/
def validate (h : Header) : Except Error Unit :=
  if newestMajor < h.majorVersion
      ∨ (h.majorVersion = newestMajor ∧ newestMinor < h.minorVersion) then
    .error (.unsupportedVersion h.majorVersion h.minorVersion)
  else if h.bucketCount < h.resourceCount then .error (.corrupt .moreResourcesThanBuckets)
  else .ok ()

/-- The bytes of a header. -/
def encode (h : Header) (o : ByteOrder) : Bytes :=
  o.encode32 h.magic ++ o.encode16 h.majorVersion ++ o.encode16 h.minorVersion
    ++ o.encode32 h.flags ++ o.encode32 h.resourceCount ++ o.encode32 h.bucketCount
    ++ o.encode32 h.locationsSize ++ o.encode32 h.stringsSize ++ o.encode32 h.reserved

/-- The fields at their places, whatever they hold. -/
def fields (data : Bytes) (o : ByteOrder) : Header :=
  let word (i : Nat) := o.decode32 ((data.drop i).take 4)
  let half (i : Nat) := o.decode16 ((data.drop i).take 2)
  ⟨word 0, half 4, half 6, word 8, word 12, word 16, word 20, word 24, word 28⟩

/-- Reads the header at the front of a container. The magic word tells a container of the other byte
    order from what is no container, and is looked at before the length. -/
def parse (data : Bytes) (o : ByteOrder) : Except Error Header :=
  let first := data.take 4
  if first.length < 4 then .error .badMagic
  else if o.decode32 first ≠ magicWord then
    .error (if o.opposite.decode32 first = magicWord then .wrongByteOrder else .badMagic)
  else if data.length < size then .error (.corrupt .headerTruncated)
  else do
    let h := fields data o
    h.validate
    return h

end Header

end ResourceArchive
