import Mathlib.Logic.Function.Iterate
import ResourceArchive.Proofs.Delimited
import ResourceArchive.Proofs.Packed
import ResourceArchive.Proofs.Regions

/-! Listing the locations of any container that could be opened, however many records its header says that
    it has and whatever bytes they are. Every record takes at least one byte and every call one of the
    records that are due, so the list ends; its items are what is found at the places where the records
    begin, and so is the error that may end it early. -/

namespace ResourceArchive

namespace Record

theorem length_encode_pos (r : Record) : 0 < r.encode.length :=
  List.length_pos_of_ne_nil (Archive.encode_ne_nil r)

/-- What is read at a position is the record at the front of the bytes from there on. It takes some of
    them, and the next position is behind it. -/
theorem readAt_eq_ok {c : Content} {position next : Nat} {r : Record}
    (read : readAt c position = .ok (r, next)) :
    ∃ size, decodeSized (c.toBytes.drop position) = .ok (r, size) ∧ 0 < size
      ∧ next = position + size ∧ next ≤ c.length := by
  rw [readAt_eq] at read
  rcases decoded : decode (c.toBytes.drop position) with e | ⟨s, rest⟩
  · rw [decoded] at read
    cases read
  rw [decoded] at read
  cases read
  have sized : decodeSized (c.toBytes.drop position)
      = .ok (r, (c.toBytes.drop position).length - rest.length) := by
    rw [decodeSized, decoded, ok_bind]
    rfl
  obtain ⟨used, rest', parts, size, -, short⟩ := exists_takes_of_decodeSized sized
  have taken := length_encode_pos r
  have bytes := congrArg List.length parts
  rw [List.length_append] at bytes
  have all : (c.toBytes.drop position).length = c.length - position := by
    rw [List.length_drop, Content.toBytes_length]
  refine ⟨_, sized, ?_, ?_, ?_⟩
  · omega
  · omega
  · omega

end Record

namespace Archive

/-! ### Calls -/

/-- How many items are still to come: at least, and at most if that is known. -/
def Cursor.sizeHint (c : Cursor) : Nat × Option Nat := (0, some c.remaining)

/-- The state that a call leaves. -/
def advance (a : Archive) (c : Cursor) : Cursor :=
  match a.next? c with
  | none => c
  | some (_, next) => next

/-- The state that the first `i` calls leave. -/
def cursorAfter (a : Archive) (i : Nat) : Cursor := a.advance^[i] a.cursor

/-- The item of the call that follows `i` others. -/
def call (a : Archive) (i : Nat) : Option (Except Error Location) :=
  (a.next? (a.cursorAfter i)).map Prod.fst

variable {o : ByteOrder} {data : Bytes} {a : Archive} {c : Cursor} {l : Location} {r : Record}
  {size position i : Nat} {e : Error} {offset : UInt32}

/-- A call that reads a location. The record takes up `size` bytes, and its strings are there. -/
structure Reads (a : Archive) (c : Cursor) (l : Location) (r : Record) (size : Nat) : Prop where
  due : 0 < c.remaining
  record : Record.decodeSized (a.records.toBytes.drop c.position) = .ok (r, size)
  located : Location.readAt a.records c.position a.strings = .ok l
  pos : 0 < size
  inside : c.position + size ≤ a.records.length
  next? : a.next? c = some (.ok l, ⟨c.position + size, c.remaining - 1⟩)

/-- A call that fails, since the record or its strings cannot be read. -/
structure Fails (a : Archive) (c : Cursor) (e : Error) (position : Nat) : Prop where
  due : 0 < c.remaining
  located : Location.readAt a.records c.position a.strings = .error e
  next? : a.next? c = some (.error e, ⟨position, 0⟩)

/-- All that a call can do. -/
theorem next?_cases (a : Archive) (c : Cursor) :
    (c.remaining = 0 ∧ a.next? c = none)
    ∨ (∃ l r size, a.Reads c l r size)
    ∨ ∃ e position, a.Fails c e position := by
  obtain ⟨position, remaining⟩ := c
  rcases remaining with _ | n
  · exact .inl ⟨rfl, rfl⟩
  right
  rcases read : Record.readAt a.records position with e | ⟨record, next⟩
  · refine .inr ⟨e, position, Nat.succ_pos n, ?_, ?_⟩
    · rw [Location.readAt, read]
      rfl
    · simp only [Archive.next?, read]
  · have located : Location.readAt a.records position a.strings = Location.resolve record a.strings := by
      rw [Location.readAt, read, ok_bind]
    rcases resolved : Location.resolve record a.strings with e | l
    · refine .inr ⟨e, next, Nat.succ_pos n, located.trans resolved, ?_⟩
      simp only [Archive.next?, read, resolved]
    · obtain ⟨size, record, pos, rfl, inside⟩ := Record.readAt_eq_ok read
      refine .inl ⟨l, _, size, Nat.succ_pos n, record, located.trans resolved, pos, inside, ?_⟩
      simp only [Archive.next?, read, resolved, Nat.add_sub_cancel]

theorem next?_eq_none_iff : a.next? c = none ↔ c.remaining = 0 := by
  constructor
  · intro none
    rcases a.next?_cases c with ⟨zero, -⟩ | ⟨l, r, size, reads⟩ | ⟨e, position, fails⟩
    · exact zero
    · rw [reads.next?] at none
      cases none
    · rw [fails.next?] at none
      cases none
  · intro zero
    rw [next?, zero]

/-- A call that gives an item leaves fewer due. -/
theorem remaining_lt_of_next? {item : Except Error Location} {next : Cursor}
    (step : a.next? c = some (item, next)) : next.remaining < c.remaining := by
  rcases a.next?_cases c with ⟨-, none⟩ | ⟨l, r, size, reads⟩ | ⟨e, position, fails⟩
  · rw [none] at step
    cases step
  · rw [reads.next?] at step
    cases step
    exact Nat.sub_one_lt_of_lt reads.due
  · rw [fails.next?] at step
    cases step
    exact fails.due

theorem advance_of_remaining_eq_zero (zero : c.remaining = 0) : a.advance c = c := by
  rw [advance, next?_eq_none_iff.2 zero]

theorem Reads.advance_eq (reads : a.Reads c l r size) :
    a.advance c = ⟨c.position + size, c.remaining - 1⟩ := by
  rw [advance, reads.next?]

theorem Fails.advance_eq (fails : a.Fails c e position) : a.advance c = ⟨position, 0⟩ := by
  rw [advance, fails.next?]

/-! ### Random access -/

theorem locationAt_of_lt (inside : offset.toNat < a.records.length) :
    a.locationAt offset = Location.readAt a.records offset.toNat a.strings :=
  if_neg (Nat.not_le.2 inside)

theorem Reads.lt_length (reads : a.Reads c l r size) : c.position < a.records.length :=
  Nat.lt_of_lt_of_le (Nat.lt_add_of_pos_right reads.pos) reads.inside

/-- What a call reads is what is found at the place. -/
theorem Reads.locationAt_eq (reads : a.Reads c l r size) (here : offset.toNat = c.position) :
    a.locationAt offset = .ok l := by
  rw [locationAt_of_lt (here ▸ reads.lt_length), here, reads.located]

/-- Where a call fails, looking there fails with the same error. Past the last record a call finds a record
    without bytes, and looking there finds no record. -/
theorem Fails.locationAt_eq (fails : a.Fails c e position) (here : offset.toNat = c.position) :
    (c.position < a.records.length ∧ a.locationAt offset = .error e)
    ∨ (a.records.length ≤ c.position ∧ e = .corrupt .recordTruncated
        ∧ a.locationAt offset = .error (.corrupt .locationOutOfBounds)) := by
  rcases Nat.lt_or_ge c.position a.records.length with inside | past
  · refine .inl ⟨inside, ?_⟩
    rw [locationAt_of_lt (here ▸ inside), here, fails.located]
  · refine .inr ⟨past, ?_, if_pos (here ▸ past)⟩
    have located := fails.located
    rw [Location.readAt_eq, List.drop_of_length_le (by rwa [Content.toBytes_length]), Location.decode,
      Record.decode, Record.decodeInto_error rfl] at located
    exact (Except.error.inj located).symm

/-! ### The list of all items -/

/-- The items of a list are those of the calls, one after another. -/
theorem getElem?_readingsFrom (a : Archive) {n : Nat} {c : Cursor} (enough : c.remaining ≤ n) (i : Nat) :
    ((a.readingsFrom n c).map Prod.snd)[i]? = (a.next? (a.advance^[i] c)).map Prod.fst := by
  induction n generalizing c i with
  | zero =>
    have zero := Nat.le_zero.1 enough
    rw [Function.iterate_fixed (advance_of_remaining_eq_zero zero), next?_eq_none_iff.2 zero]
    rfl
  | succ n ih =>
    rw [readingsFrom]
    rcases step : a.next? c with _ | ⟨item, next⟩
    · have zero := next?_eq_none_iff.1 step
      rw [Function.iterate_fixed (advance_of_remaining_eq_zero zero), step]
      rfl
    · have after : a.advance c = next := by rw [advance, step]
      have fewer : next.remaining ≤ n :=
        Nat.le_of_lt_succ (Nat.lt_of_lt_of_le (remaining_lt_of_next? step) enough)
      rcases i with _ | i
      · rw [Function.iterate_zero, id, step]
        rfl
      · rw [Function.iterate_succ_apply, after]
        exact ih fewer i

theorem getElem?_locations (a : Archive) (i : Nat) : a.locations[i]? = a.call i :=
  a.getElem?_readingsFrom (c := a.cursor) (Nat.le_refl _) i

/-- An error is the last item. If there is none, there are as many items as are due. -/
theorem readingsFrom_shape (a : Archive) {n : Nat} {c : Cursor} (due : c.remaining = n) :
    ∃ (ls : List Location) (failure : Option Error),
      (a.readingsFrom n c).map Prod.snd = ls.map .ok ++ failure.toList.map .error
      ∧ ls.length + failure.toList.length ≤ n ∧ (failure = none → ls.length = n) := by
  induction n generalizing c with
  | zero => exact ⟨[], none, rfl, Nat.le_refl _, fun _ => rfl⟩
  | succ n ih =>
    rw [readingsFrom]
    rcases a.next?_cases c with ⟨zero, -⟩ | ⟨l, r, size, reads⟩ | ⟨e, position, fails⟩
    · rw [zero] at due
      cases due
    · obtain ⟨ls, failure, shape, few, all⟩ := @ih ⟨c.position + size, c.remaining - 1⟩ (by rw [due]; rfl)
      refine ⟨l :: ls, failure, ?_, ?_, ?_⟩
      · rw [reads.next?]
        exact congrArg (Except.ok l :: ·) shape
      · rw [List.length_cons]
        omega
      · intro none
        rw [List.length_cons, all none]
    · -- Nothing is due after an error, so that nothing follows it.
      refine ⟨[], some e, ?_, Nat.succ_le_succ (Nat.zero_le n),
        fun none => absurd none (Option.some_ne_none e)⟩
      rw [fails.next?]
      rcases n with _ | n
      · rfl
      · rfl

/-! ### Runs of calls -/

theorem cursorAfter_succ (a : Archive) (i : Nat) : a.cursorAfter (i + 1) = a.advance (a.cursorAfter i) :=
  Function.iterate_succ_apply' ..

theorem Reads.cursorAfter_succ (reads : a.Reads (a.cursorAfter i) l r size) :
    a.cursorAfter (i + 1) = ⟨(a.cursorAfter i).position + size, (a.cursorAfter i).remaining - 1⟩ :=
  (a.cursorAfter_succ i).trans reads.advance_eq

/-- Once nothing is due, nothing changes. -/
theorem cursorAfter_eq_of_le {k : Nat} (zero : (a.cursorAfter k).remaining = 0) (later : k ≤ i) :
    a.cursorAfter i = a.cursorAfter k := by
  obtain ⟨j, rfl⟩ := Nat.exists_eq_add_of_le' later
  rw [cursorAfter, Function.iterate_add_apply]
  exact Function.iterate_fixed (advance_of_remaining_eq_zero zero) j

theorem exists_reads_of_call (read : a.call i = some (.ok l)) :
    ∃ r size, a.Reads (a.cursorAfter i) l r size := by
  rw [call] at read
  rcases a.next?_cases (a.cursorAfter i) with ⟨-, none⟩ | ⟨m, r, size, reads⟩ | ⟨e, position, fails⟩
  · rw [none] at read
    cases read
  · rw [reads.next?] at read
    cases read
    exact ⟨r, size, reads⟩
  · rw [fails.next?] at read
    cases read

theorem exists_fails_of_call (failed : a.call i = some (.error e)) :
    ∃ position, a.Fails (a.cursorAfter i) e position := by
  rw [call] at failed
  rcases a.next?_cases (a.cursorAfter i) with ⟨-, none⟩ | ⟨l, r, size, reads⟩ | ⟨e, position, fails⟩
  · rw [none] at failed
    cases failed
  · rw [reads.next?] at failed
    cases failed
  · rw [fails.next?] at failed
    cases failed
    exact ⟨position, fails⟩

/-- What holds after `i` calls that have each read a location. -/
structure Reached (a : Archive) (i : Nat) : Prop where
  count : (a.cursorAfter i).remaining + i = a.resourceCount
  past : i ≤ (a.cursorAfter i).position
  inside : (a.cursorAfter i).position ≤ a.records.length

theorem Reached.step (reached : a.Reached i) (reads : a.Reads (a.cursorAfter i) l r size) :
    a.Reached (i + 1) := by
  have due := reads.due
  have pos := reads.pos
  obtain ⟨count, past, -⟩ := reached
  refine ⟨?_, ?_, ?_⟩
  · rw [reads.cursorAfter_succ]
    dsimp only
    omega
  · rw [reads.cursorAfter_succ]
    dsimp only
    omega
  · rw [reads.cursorAfter_succ]
    exact reads.inside

/-- Every location that is read takes one from those that are due, and at least one byte. -/
theorem reached_of_calls (read : ∀ j < i, ∃ l, a.call j = some (.ok l)) : a.Reached i := by
  induction i with
  | zero => exact ⟨rfl, Nat.le_refl 0, Nat.zero_le _⟩
  | succ i ih =>
    obtain ⟨l, last⟩ := read i (Nat.lt_succ_self i)
    obtain ⟨r, size, reads⟩ := exists_reads_of_call last
    exact (ih fun j before => read j (Nat.lt_succ_of_lt before)).step reads

/-! ### Places of the records -/

theorem Opened.records_length (opened : a.Opened o data) :
    a.records.length = a.header.locationsSize.toNat := by
  have indexed := opened.indexed
  rw [indexSize, Header.indexSize, Header.stringsOffset] at indexed
  rw [opened.records, Content.slice_length, ← Content.toBytes_length, Content.toBytes_ofBytes]
  omega

/-- No place that is reached is too far for an offset. -/
theorem Reached.exists_offset (reached : a.Reached i) (opened : a.Opened o data) :
    ∃ offset : UInt32, offset.toNat = (a.cursorAfter i).position := by
  have inside := reached.inside
  rw [opened.records_length] at inside
  exact ⟨_, UInt32.toNat_ofNat_of_lt' (Nat.lt_of_le_of_lt inside (UInt32.toNat_lt _))⟩

/-- The location that a call reads is found where its record begins. The next record begins behind it. -/
theorem Reached.locationAt_of_call (reached : a.Reached i) (opened : a.Opened o data)
    (read : a.call i = some (.ok l)) :
    ∃ offset r size, offset.toNat = (a.cursorAfter i).position
      ∧ offset < a.header.locationsSize
      ∧ Record.decodeSized (a.records.toBytes.drop offset.toNat) = .ok (r, size)
      ∧ (a.cursorAfter (i + 1)).position = offset.toNat + size
      ∧ a.locationAt offset = .ok l := by
  obtain ⟨r, size, reads⟩ := exists_reads_of_call read
  obtain ⟨offset, here⟩ := reached.exists_offset opened
  refine ⟨offset, r, size, here, ?_, ?_, ?_, reads.locationAt_eq here⟩
  · rw [UInt32.lt_iff_toNat_lt, here, ← opened.records_length]
    exact reads.lt_length
  · rw [here]
    exact reads.record
  · rw [here, reads.cursorAfter_succ]

/-- Where a call fails, no location is found. The error is the same, except where no bytes are left. -/
theorem Reached.locationAt_of_call_error (reached : a.Reached i) (opened : a.Opened o data)
    (failed : a.call i = some (.error e)) :
    ∃ offset, offset.toNat = (a.cursorAfter i).position
      ∧ ((offset < a.header.locationsSize ∧ a.locationAt offset = .error e)
        ∨ (offset = a.header.locationsSize ∧ e = .corrupt .recordTruncated
          ∧ a.locationAt offset = .error (.corrupt .locationOutOfBounds))) := by
  obtain ⟨position, fails⟩ := exists_fails_of_call failed
  obtain ⟨offset, here⟩ := reached.exists_offset opened
  have length := opened.records_length
  refine ⟨offset, here, ?_⟩
  rcases fails.locationAt_eq here with ⟨inside, same⟩ | ⟨past, cut, outside⟩
  · refine .inl ⟨?_, same⟩
    rwa [UInt32.lt_iff_toNat_lt, here, ← length]
  · refine .inr ⟨?_, cut, outside⟩
    rw [← UInt32.toNat_inj, here, ← length]
    exact Nat.le_antisymm reached.inside past

/-! ### Listing -/

/-- The list of all items is a list of locations, and possibly an error that ends it early. -/
structure Listed (a : Archive) (ls : List Location) (failure : Option Error) : Prop where
  items : a.locations = ls.map .ok ++ failure.toList.map .error
  calls : ∀ i, a.call i = a.locations[i]?
  few : ls.length ≤ min a.resourceCount a.header.locationsSize.toNat
  all : failure = none → ls.length = a.resourceCount
  early : failure ≠ none → ls.length < a.resourceCount
  first : (a.cursorAfter 0).position = 0
  reads : ∀ i (hi : i < ls.length), ∃ offset r size, offset.toNat = (a.cursorAfter i).position
    ∧ offset < a.header.locationsSize
    ∧ Record.decodeSized (a.records.toBytes.drop offset.toNat) = .ok (r, size)
    ∧ (a.cursorAfter (i + 1)).position = offset.toNat + size
    ∧ a.locationAt offset = .ok ls[i]
  fails : ∀ e, failure = some e → ∃ offset, offset.toNat = (a.cursorAfter ls.length).position
    ∧ ((offset < a.header.locationsSize ∧ a.locationAt offset = .error e)
      ∨ (offset = a.header.locationsSize ∧ e = .corrupt .recordTruncated
        ∧ a.locationAt offset = .error (.corrupt .locationOutOfBounds)))
  hint : ∀ i ≤ ls.length, (a.cursorAfter i).sizeHint = (0, some (a.resourceCount - i))
  hint_after : ∀ i, ls.length < i → (a.cursorAfter i).sizeHint = (0, some 0)

section

variable {ls : List Location} {failure : Option Error}

theorem call_of_items (items : a.locations = ls.map .ok ++ failure.toList.map .error) (hi : i < ls.length) :
    a.call i = some (.ok ls[i]) := by
  rw [← getElem?_locations, items, List.getElem?_append_left (by rwa [List.length_map]),
    List.getElem?_map, List.getElem?_eq_getElem hi]
  rfl

theorem call_length_of_items (items : a.locations = ls.map .ok ++ failure.toList.map .error) :
    a.call ls.length = failure.map .error := by
  rw [← getElem?_locations, items, List.getElem?_append_right (by rw [List.length_map]), List.length_map,
    Nat.sub_self]
  rcases failure with _ | e
  · rfl
  · rfl

theorem reached_of_items (items : a.locations = ls.map .ok ++ failure.toList.map .error)
    (hi : i ≤ ls.length) : a.Reached i :=
  reached_of_calls fun _ before => ⟨_, call_of_items items (Nat.lt_of_lt_of_le before hi)⟩

/-- Nothing is due after the call that ends the list, whether it finds an error or nothing. -/
theorem remaining_eq_zero_of_items (items : a.locations = ls.map .ok ++ failure.toList.map .error) :
    (a.cursorAfter (ls.length + 1)).remaining = 0 := by
  have last := call_length_of_items items
  rcases failure with _ | e
  · have zero := next?_eq_none_iff.1 (Option.map_eq_none_iff.1 last)
    rw [a.cursorAfter_succ, advance_of_remaining_eq_zero zero, zero]
  · obtain ⟨position, fails⟩ := exists_fails_of_call last
    rw [a.cursorAfter_succ, fails.advance_eq]

end

/-- Listing agrees with looking at the places one by one, whatever the bytes of the container are. -/
theorem locations_listed (opened : ofBytes o data = .ok a) :
    a.records.toBytes = a.header.recordsIn data ∧ ∃ ls failure, a.Listed ls failure := by
  have opened := ofBytes_eq_ok.1 opened
  obtain ⟨ls, failure, items, due, all⟩ := a.readingsFrom_shape (c := a.cursor) rfl
  have items : a.locations = ls.map .ok ++ failure.toList.map .error := items
  have due : ls.length + failure.toList.length ≤ a.resourceCount := due
  refine ⟨opened.marked.records, ls, failure, ?_⟩
  refine {
    items := items
    calls := fun i => (getElem?_locations a i).symm
    few := ?few
    all := all
    early := ?early
    first := rfl
    reads := fun i hi =>
      (reached_of_items items (Nat.le_of_lt hi)).locationAt_of_call opened (call_of_items items hi)
    fails := ?fails
    hint := ?hint
    hint_after := ?hint_after }
  case few =>
    obtain ⟨-, past, inside⟩ := reached_of_items items (Nat.le_refl _)
    rw [← opened.records_length]
    omega
  case early =>
    intro failed
    obtain ⟨e, rfl⟩ := Option.ne_none_iff_exists'.1 failed
    exact due
  case fails =>
    rintro e rfl
    exact (reached_of_items items (Nat.le_refl _)).locationAt_of_call_error opened
      (call_length_of_items items)
  case hint =>
    intro i hi
    rw [Cursor.sizeHint, ← (reached_of_items items hi).count, Nat.add_sub_cancel]
  case hint_after =>
    intro i hi
    have zero := remaining_eq_zero_of_items items
    rw [Cursor.sizeHint, cursorAfter_eq_of_le zero hi, zero]

/-- A container like `small`, but with a header that says that there are two resources. -/
def lacking : Bytes :=
  (Header.ofSizes 2 2 5 3).encode .little ++ [0xFF, 0xFF, 0xFF, 0xFF, 0, 0, 0, 0]
    ++ [0, 0, 0, 0, 0, 0, 0, 0] ++ [3, 1, 7, 2, 0] ++ [0, 0x61, 0] ++ [5, 6]

/-- The list of `lacking` ends behind the only record, where there is no location. -/
theorem locations_listed_lacking : ∃ a l, ofBytes .little lacking = .ok a
    ∧ a.Listed [l] (some (.corrupt .recordTruncated))
    ∧ a.locationAt 0 = .ok l
    ∧ a.locationAt 5 = .error (.corrupt .locationOutOfBounds)
    ∧ (a.cursorAfter 1).sizeHint = (0, some 1)
    ∧ (a.cursorAfter 2).sizeHint = (0, some 0) := by
  obtain ⟨a, l, opened, items, count, size, behind⟩ : ∃ a l, ofBytes .little lacking = .ok a
      ∧ a.locations = [.ok l, .error (.corrupt .recordTruncated)] ∧ a.resourceCount = 2
      ∧ a.header.locationsSize = 5 ∧ (a.cursorAfter 1).position = 5 :=
    ⟨_, _, rfl, rfl, rfl, rfl, rfl⟩
  obtain ⟨-, ls, failure, listed⟩ := locations_listed opened
  obtain ⟨rfl, rfl⟩ : ls = [l] ∧ failure = some (.corrupt .recordTruncated) := by
    have same := listed.items.symm.trans items
    rcases ls with _ | ⟨m, _ | ⟨n, ls⟩⟩
    · rcases failure with _ | e
      · cases same
      · cases same
    · rcases failure with _ | e
      · cases same
      · cases same
        exact ⟨rfl, rfl⟩
    · cases same
  obtain ⟨start, _, _, here, -, -, -, found⟩ := listed.reads 0 Nat.one_pos
  obtain rfl : start = 0 := UInt32.toNat_inj.1 (here.trans listed.first)
  obtain ⟨stop, here, fails⟩ := listed.fails _ rfl
  obtain rfl : stop = 5 := UInt32.toNat_inj.1 (here.trans behind)
  rw [size] at fails
  obtain ⟨inside, -⟩ | ⟨-, -, outside⟩ := fails
  · exact absurd inside (UInt32.lt_irrefl 5)
  · refine ⟨a, l, opened, listed, found, outside, ?_, listed.hint_after 2 Nat.one_lt_two⟩
    rw [listed.hint 1 (Nat.le_refl 1), count]

end Archive

end ResourceArchive
