import ResourceArchive.Binary64
import ResourceArchive.Index.Tables

/-! How a container is to be built. -/

namespace ResourceArchive

structure Options where
  order : ByteOrder := .little
  /-- Wanted ratio of buckets to resources. -/
  density : Binary64 := .one
  /-- The last seed that is tried for names with one bucket. -/
  maxSeed : Int32 := 0x00FFFFFF
  deriving DecidableEq, Repr, Inhabited

namespace Options

/-- Number of buckets for `n` resources: `n` times the density, rounded up, and never fewer than
    there are resources. -/
def bucketCount (o : Options) (n : Nat) : Except Error Nat :=
  if n = 0 then .ok 0
  else match (o.density.atLeastOne.scale n).ceil? with
    | none => .error (.tooLarge .buckets)
    | some count => if maxBuckets < count then .error (.tooLarge .buckets) else .ok (max count n)

end Options

end ResourceArchive
