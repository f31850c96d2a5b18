import ResourceArchive.Bytes

/-! What a file holds, in runs: bytes as they are, and zeros, which are counted and not kept. So a file
    that was made longer without writing to it takes no more room than before, and neither do the
    zeros of a large table. `toBytes` is what a content means; the main statements say what cutting,
    joining and resizing do to it. -/

namespace ResourceArchive

/-- A stretch of a content. -/
inductive Run where
  | bytes (data : Array UInt8)
  | zeros (count : Nat)
  deriving DecidableEq, Repr

namespace Run

def toBytes : Run → Bytes
  | bytes data => data.toList
  | zeros count => List.replicate count 0

def length : Run → Nat
  | bytes data => data.size
  | zeros count => count

/-- The bytes from an offset on, at most `size` of them. -/
def slice (offset size : Nat) : Run → Run
  | bytes data => bytes (data.extract offset (offset + size))
  | zeros count => zeros (min size (count - offset))

def get? (r : Run) (i : Nat) : Option UInt8 :=
  match r with
  | bytes data => data[i]?
  | zeros count => if i < count then some 0 else none

theorem toBytes_length (r : Run) : r.toBytes.length = r.length := by
  cases r <;> simp [toBytes, length]

theorem toBytes_slice (r : Run) (offset size : Nat) :
    (r.slice offset size).toBytes = (r.toBytes.drop offset).take size := by
  cases r <;> simp [toBytes, slice, List.extract_eq_take_drop]

theorem get?_eq (r : Run) (i : Nat) : r.get? i = r.toBytes[i]? := by
  cases r <;> simp [toBytes, get?, List.getElem?_replicate]

end Run

structure Content where
  runs : List Run := []
  deriving DecidableEq, Repr, Inhabited

namespace Content

/-- All bytes. -/
def toBytes (c : Content) : Bytes := c.runs.flatMap Run.toBytes

def ofBytes (bytes : Bytes) : Content := ⟨[.bytes bytes.toArray]⟩

def zeros (count : Nat) : Content := ⟨[.zeros count]⟩

def length (c : Content) : Nat := c.runs.foldl (fun n r => n + r.length) 0

/-! Reading -/

/-- The bytes of several runs from an offset on, at most `size` of them. -/
def sliceRuns (offset size : Nat) : List Run → List Run
  | [] => []
  | r :: rest =>
    let n := r.length
    if n ≤ offset then sliceRuns (offset - n) size rest
    else if size ≤ n - offset then [r.slice offset size]
    else r.slice offset (n - offset) :: sliceRuns 0 (size - (n - offset)) rest

/-- The bytes from an offset on, at most `size` of them. -/
def slice (c : Content) (offset size : Nat) : Content := ⟨sliceRuns offset size c.runs⟩

/-- The same as plain bytes. -/
def range (c : Content) (offset size : Nat) : Bytes := (c.slice offset size).toBytes

/-- The byte at a position of several runs. -/
def getRuns? (i : Nat) : List Run → Option UInt8
  | [] => none
  | r :: rest => if i < r.length then r.get? i else getRuns? (i - r.length) rest

def get? (c : Content) (i : Nat) : Option UInt8 := getRuns? i c.runs

/-- The first position that holds a zero among `count` of them from `i` on. -/
def zeroAmong? (c : Content) (i : Nat) : Nat → Option Nat
  | 0 => none
  | count + 1 => if c.get? i = some 0 then some i else c.zeroAmong? (i + 1) count

/-- The bytes from an offset on up to a zero, if there is one. -/
def beforeZero? (c : Content) (offset : Nat) : Option Bytes :=
  (c.zeroAmong? offset (c.length - offset)).map fun stop => c.range offset (stop - offset)

/-! Joining and resizing -/

/-- Fewer zeros in a row than this are kept as bytes. -/
def leastGap : Nat := 4096

/-- Puts short runs together. `held` are the bytes of those just before. -/
def compact (held : Array UInt8) : List Run → List Run
  | [] => [.bytes held]
  | .bytes data :: rest => compact (held ++ data) rest
  | .zeros count :: rest =>
    if count < leastGap then compact (held ++ Array.replicate count 0) rest
    else .bytes held :: .zeros count :: compact #[] rest

/-- Contents one after another. -/
def join (contents : List Content) : Content := ⟨compact #[] (contents.flatMap runs)⟩

instance : Append Content := ⟨fun c d => join [c, d]⟩

/-- Cuts off what is past a length, or fills up to it with zeros. -/
def resize (c : Content) (length : Nat) : Content :=
  ⟨(c.slice 0 length).runs ++ [.zeros (length - c.length)]⟩

/-! What these do to the bytes -/

theorem toBytes_ofBytes (bytes : Bytes) : (ofBytes bytes).toBytes = bytes := by
  simp [ofBytes, toBytes, Run.toBytes]

theorem toBytes_zeros (count : Nat) : (zeros count).toBytes = List.replicate count 0 := by
  simp [zeros, toBytes, Run.toBytes]

theorem foldl_length (n : Nat) (runs : List Run) :
    runs.foldl (fun n r => n + r.length) n = n + (runs.flatMap Run.toBytes).length := by
  induction runs generalizing n with
  | nil => simp
  | cons r rest ih => simp [ih, Run.toBytes_length, Nat.add_assoc]

theorem toBytes_length (c : Content) : c.toBytes.length = c.length := by
  simp [toBytes, length, foldl_length]

theorem flatMap_sliceRuns (offset size : Nat) (runs : List Run) :
    (sliceRuns offset size runs).flatMap Run.toBytes
      = ((runs.flatMap Run.toBytes).drop offset).take size := by
  induction runs generalizing offset size with
  | nil => simp [sliceRuns]
  | cons r rest ih =>
    have hr := r.toBytes_length
    rw [sliceRuns, List.flatMap_cons, List.drop_append, hr]
    split
    · rw [ih, List.drop_of_length_le (l := r.toBytes) (by omega), List.nil_append]
    · split
      · rw [List.take_append_of_le_length (by simp; omega)]
        simp [Run.toBytes_slice]
      · rw [List.flatMap_cons, ih, Run.toBytes_slice, List.take_append, List.length_drop, hr,
          List.take_of_length_le (i := r.length - offset) (by simp; omega),
          List.take_of_length_le (i := size) (by simp; omega)]
        simp [show offset - r.length = 0 by omega]

theorem toBytes_slice (c : Content) (offset size : Nat) :
    (c.slice offset size).toBytes = (c.toBytes.drop offset).take size :=
  flatMap_sliceRuns ..

theorem range_eq (c : Content) (offset size : Nat) :
    c.range offset size = (c.toBytes.drop offset).take size :=
  toBytes_slice ..

theorem range_length (c : Content) (offset size : Nat) :
    (c.range offset size).length = min size (c.length - offset) := by
  simp [range_eq, toBytes_length]

theorem slice_length (c : Content) (offset size : Nat) :
    (c.slice offset size).length = min size (c.length - offset) := by
  simp [← toBytes_length, toBytes_slice]

theorem getRuns?_eq (i : Nat) (runs : List Run) :
    getRuns? i runs = (runs.flatMap Run.toBytes)[i]? := by
  induction runs generalizing i with
  | nil => rfl
  | cons r rest ih =>
    rw [getRuns?, List.flatMap_cons, List.getElem?_append, r.toBytes_length, ih, r.get?_eq]

theorem get?_eq (c : Content) (i : Nat) : c.get? i = c.toBytes[i]? := getRuns?_eq ..

theorem zeroAmong?_eq (c : Content) (i count : Nat) :
    c.zeroAmong? i count
      = (((c.toBytes.drop i).take count).findIdx? (· == 0)).map (i + ·) := by
  induction count generalizing i with
  | zero => simp [zeroAmong?]
  | succ count ih =>
    rw [zeroAmong?, get?_eq, ih]
    rcases Nat.lt_or_ge i c.toBytes.length with h | h
    · rw [List.drop_eq_getElem_cons h, List.getElem?_eq_getElem h, List.take_succ_cons,
        List.findIdx?_cons]
      by_cases hb : c.toBytes[i] = 0
      · simp [hb]
      · simp only [Option.some.injEq, hb, if_false, beq_iff_eq, Option.map_map]
        congr 1
        funext k
        simp only [Function.comp_apply]
        omega
    · simp [List.drop_of_length_le h, List.drop_of_length_le (Nat.le_succ_of_le h),
        List.getElem?_eq_none h]

theorem take_findIdx?_zero (bs : Bytes) :
    (bs.findIdx? (· == 0)).map bs.take
      = if 0 ∈ bs then some (bs.takeWhile (· != 0)) else none := by
  induction bs with
  | nil => rfl
  | cons b bs ih =>
    by_cases hb : b = 0
    · simp [hb, List.findIdx?_cons]
    · have hb' : ¬0 = b := fun h => hb h.symm
      have step : ((b :: bs).findIdx? (· == 0)).map (b :: bs).take
          = ((bs.findIdx? (· == 0)).map bs.take).map (b :: ·) := by
        simp [List.findIdx?_cons, hb, Function.comp_def]
      rw [step, ih]
      by_cases h : 0 ∈ bs <;> simp [h, hb, hb']

theorem beforeZero?_eq (c : Content) (offset : Nat) :
    c.beforeZero? offset =
      if 0 ∈ c.toBytes.drop offset then some ((c.toBytes.drop offset).takeWhile (· != 0))
      else none := by
  have h : (c.toBytes.drop offset).take (c.length - offset) = c.toBytes.drop offset :=
    List.take_of_length_le (by simp [toBytes_length])
  rw [beforeZero?, zeroAmong?_eq, h, ← take_findIdx?_zero, Option.map_map]
  congr 1
  funext k
  simp [range_eq]

theorem flatMap_compact (held : Array UInt8) (runs : List Run) :
    (compact held runs).flatMap Run.toBytes = held.toList ++ runs.flatMap Run.toBytes := by
  induction runs generalizing held with
  | nil => simp [compact, Run.toBytes]
  | cons r rest ih =>
    cases r with
    | bytes data => simp [compact, ih, Run.toBytes]
    | zeros count =>
      rw [compact]
      split <;> simp [ih, Run.toBytes]

theorem toBytes_join (contents : List Content) :
    (join contents).toBytes = contents.flatMap toBytes := by
  simp only [join, toBytes, flatMap_compact, List.nil_append]
  induction contents with
  | nil => rfl
  | cons c rest ih => simp_all [List.flatMap_append, toBytes]

theorem toBytes_append (c d : Content) : (c ++ d).toBytes = c.toBytes ++ d.toBytes := by
  show (join [c, d]).toBytes = _
  simp [toBytes_join]

/-- A resized content begins with as much of the old one as fits. -/
theorem toBytes_resize (c : Content) (n : Nat) :
    (c.resize n).toBytes = c.toBytes.take n ++ List.replicate (n - c.length) 0 := by
  have h := c.toBytes_slice 0 n
  simp only [toBytes, resize, List.flatMap_append] at h ⊢
  rw [h]
  simp [Run.toBytes]

theorem resize_length (c : Content) (n : Nat) : (c.resize n).length = n := by
  simp only [← toBytes_length, toBytes_resize, List.length_append, List.length_take,
    List.length_replicate]
  omega

end Content

end ResourceArchive
