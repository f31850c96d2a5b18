import Std.Data.TreeSet.Basic
import ResourceArchive.Index.Tables

/-! The assignment of names to slots. Names are grouped by bucket. The buckets with several names go
    first, the largest ahead and equally large ones by number: each takes the least seed that sends
    its names to different slots that are still free. The names that are alone in their bucket then
    share out the free slots in order. Only what is in use is kept, so that a table may be far larger
    than the list of names. -/

namespace ResourceArchive

/-- A redirect for every bucket with names, and a slot for every name, in the order of the names. -/
structure Assignment where
  /-- Number of buckets, which is also the number of slots. -/
  size : Nat
  redirects : Std.TreeMap Nat Redirect
  slots : Array Nat
  deriving Inhabited

namespace Assignment

/-- A name and its place in the list of names. -/
abbrev Entry := Nat × Bytes

/-- The names of each bucket that has any, in the order of the list. -/
abbrev Buckets := Std.TreeMap Nat (List Entry)

/-- The names with their places. -/
def entries (names : List Bytes) : List Entry := names.zipIdx.map Prod.swap

/-- Puts a name before the others of its bucket, among `size` buckets. -/
def Buckets.put (size : Nat) (e : Entry) (table : Buckets) : Buckets :=
  let bucket := Hash.bucket e.2 size
  table.insert bucket (e :: table.getD bucket [])

/-- Sorts names into `size` buckets. -/
def buckets (names : List Bytes) (size : Nat) : Buckets :=
  (entries names).foldr (Buckets.put size) {}

/-- The buckets with several names, in the order in which they are given seeds: from the largest size
    down, and by number among those of a size. -/
def groups (table : Buckets) : List (Nat × List Entry) :=
  let crowded := table.toList.filter (1 < ·.2.length)
  let sizes := Std.TreeSet.ofList (crowded.map (·.2.length))
  sizes.toList.reverse.flatMap fun size => crowded.filter (·.2.length == size)

/-- The buckets with one name, and its place. -/
def singles (table : Buckets) : List (Nat × Nat) :=
  table.toList.filterMap fun
    | (bucket, [(i, _)]) => some (bucket, i)
    | _ => none

/-- An assignment on the way, and the slots it has given out. -/
structure Progress extends Assignment where
  taken : Std.TreeSet Nat

/-- The slots to which a seed sends a group, in the order of the group, if they are free and no two of
    them are the same. `claimed` holds those of earlier members, latest first. -/
def Progress.claim? (p : Progress) (seed : UInt32) (claimed : List Nat) :
    List Entry → Option (List Nat)
  | [] => some claimed.reverse
  | (_, name) :: rest =>
    let slot := Hash.slot name seed p.size
    if claimed.contains slot || p.taken.contains slot then none
    else p.claim? seed (slot :: claimed) rest

/-- Whether a name is in a group twice. No seed tells the two apart. -/
def repeatsName : List Entry → Bool
  | [] => false
  | (_, name) :: rest => rest.any (·.2 == name) || repeatsName rest

/-- The least seed among the `count` from `seed` on that resolves a group, and the slots it gives. -/
def Progress.leastSeed? (p : Progress) (group : List Entry) : Nat → Nat → Option (Nat × List Nat)
  | 0, _ => none
  | count + 1, seed =>
    match p.claim? (UInt32.ofNat seed) [] group with
    | some slots => some (seed, slots)
    | none => p.leastSeed? group count (seed + 1)

/-- Gives a slot to the name at a place. -/
def Progress.give (p : Progress) (i slot : Nat) : Progress :=
  { p with
    slots := p.slots.setIfInBounds i slot
    taken := p.taken.insert slot }

/-- Says where the names of a bucket are found. -/
def Progress.direct (p : Progress) (bucket : Nat) (r : Redirect) : Progress :=
  { p with redirects := p.redirects.insert bucket r }

/-- Resolves a bucket with several names. -/
def Progress.placeGroup (maxSeed : Nat) (p : Progress) :
    Nat × List Entry → Except Error Progress
  | (bucket, group) =>
    match if repeatsName group then none else p.leastSeed? group maxSeed 1 with
    | none => .error (.noSeed bucket group.length)
    | some (seed, slots) =>
      .ok ((group.zip slots).foldl (fun p ((i, _), slot) => p.give i slot)
        (p.direct bucket (.seeded seed)))

/-- The first free slot among `count` of them from `slot` on. -/
def Progress.firstFree? (p : Progress) : Nat → Nat → Option Nat
  | 0, _ => none
  | count + 1, slot =>
    if p.taken.contains slot then p.firstFree? count (slot + 1) else some slot

/-- Gives the names that are alone in their bucket the free slots from `slot` on. -/
def Progress.placeSingles (p : Progress) (slot : Nat) : List (Nat × Nat) → Except Error Progress
  | [] => .ok p
  | (bucket, i) :: rest =>
    match p.firstFree? (p.size - slot) slot with
    | none => .error (.noSeed bucket 1)
    | some slot => ((p.direct bucket (.direct slot)).give i slot).placeSingles (slot + 1) rest

/-- Gives every name a slot of its own in a table of `size` slots, trying seeds up to `maxSeed`. -/
def build (names : List Bytes) (size : Nat) (maxSeed : Int32) : Except Error Assignment :=
  if size < names.length then .error (.tooLarge .names)
  else if maxBuckets < size then .error (.tooLarge .buckets)
  else do
    let table := buckets names size
    let start : Progress := {
      size := size
      redirects := {}
      slots := Array.replicate names.length 0
      taken := {} }
    let p ← (groups table).foldlM (Progress.placeGroup maxSeed.toInt.toNat) start
    let p ← p.placeSingles 0 (singles table)
    return p.toAssignment

/-- The redirect of a bucket. -/
def redirect (a : Assignment) (bucket : Nat) : Redirect := a.redirects.getD bucket .empty

/-- The redirect table. -/
def redirectTable (a : Assignment) (o : ByteOrder) : WordTable :=
  .ofEntries o a.size (a.redirects.map fun _ r => r.toWord)

/-- The slots that are in use, with the offsets of their records, given where the record of each name
    begins. -/
def filled (a : Assignment) (offsets : List UInt32) : Std.TreeMap Nat UInt32 :=
  .ofList (a.slots.toList.zip offsets)

/-- The offset table for names whose records begin at `offsets`. A slot without a name holds zero. -/
def offsetTable (a : Assignment) (offsets : List UInt32) (o : ByteOrder) : WordTable :=
  .ofEntries o a.size (a.filled offsets)

/-- A seed does not send a name to a slot that is claimed. -/
theorem Progress.claim?_eq_none_of_claimed (p : Progress) (seed : UInt32) (claimed : List Nat)
    (group : List Entry) (e : Entry) (h : e ∈ group) (hit : Hash.slot e.2 seed p.size ∈ claimed) :
    p.claim? seed claimed group = none := by
  induction group generalizing claimed with
  | nil => cases h
  | cons first rest ih =>
    rw [claim?]
    split
    · rfl
    · next free =>
      rcases List.mem_cons.1 h with rfl | h
      · simp [hit] at free
      · exact ih _ h (.tail _ hit)

theorem Progress.claim?_eq_none_of_repeatsName (p : Progress) (seed : UInt32) (claimed : List Nat)
    (group : List Entry) (h : repeatsName group) : p.claim? seed claimed group = none := by
  induction group generalizing claimed with
  | nil => cases h
  | cons first rest ih =>
    rw [claim?]
    split
    · rfl
    · rcases Bool.or_eq_true_iff.1 h with h | h
      · obtain ⟨e, he, same⟩ := List.any_eq_true.1 h
        exact p.claim?_eq_none_of_claimed seed _ rest e he (by rw [eq_of_beq same]; exact .head _)
      · exact ih _ h

/-- Trying the seeds on a group in which a name is twice would find none. -/
theorem Progress.leastSeed?_eq_none_of_repeatsName (p : Progress) (group : List Entry)
    (h : repeatsName group) (count seed : Nat) : p.leastSeed? group count seed = none := by
  induction count generalizing seed with
  | zero => rfl
  | succ count ih => rw [leastSeed?, p.claim?_eq_none_of_repeatsName _ _ _ h, ih]

end Assignment

end ResourceArchive
