import ResourceArchive.Proofs.Record
import ResourceArchive.Proofs.Shifts

/-! Records delimit themselves. Whatever bytes a record is read from, orderly or not, it is read from these
    bytes alone: any others may follow them, and none of them can be missing. No record is read from fewer
    bytes than it is written in, since an attribute counts only once and needs no more groups than it is
    written in. -/

namespace ResourceArchive

/-- What `read` takes off the front: all of `used`, whatever follows, and it finds any part of it cut off. -/
structure Takes {α : Type} (read : Bytes → Except Error (α × Bytes)) (used : Bytes) (a : α) : Prop where
  whole : ∀ rest, read (used ++ rest) = .ok (a, rest)
  part : ∀ k < used.length, read (used.take k) = .error (.corrupt .recordTruncated)

theorem Tag.toByte_of_ofByte {b : UInt8} {t : Tag} (h : ofByte b = .ok t) : t.toByte = b := by
  unfold ofByte at h
  split at h
  all_goals cases h
  all_goals rfl

namespace Record

/-! ### Attributes -/

theorem takes_stop : Takes decodeAttribute [Tag.stop.toByte] none where
  whole _ := rfl
  part k cut := by
    rw [Nat.lt_one_iff.1 cut]
    rfl

section

variable {b last : UInt8} {more : Bytes} {tag : Tag}

theorem takes_attribute (tagged : Tag.ofByte b = .ok tag) (real : tag ≠ .stop)
    (numeral : Varint.IsNumeral more last) :
    Takes decodeAttribute (b :: (more ++ [last]))
      (some (tag, .ofNat (Varint.value (more ++ [last])))) where
  whole rest := by
    rw [List.cons_append, List.append_assoc, List.singleton_append, decodeAttribute_cons tagged real,
      Varint.read_numeral numeral]
  part k cut := by
    rcases k with _ | k
    · rfl
    · have cut : k ≤ more.length := by
        rw [List.length_cons, List.length_append, List.length_singleton] at cut
        omega
      rw [List.take_succ_cons, decodeAttribute_cons tagged real, Varint.read_take numeral cut]

end

/-- What is read from the front of some bytes is the end of a record, or a known tag and a numeral. -/
theorem decodeAttribute_cases {data rest : Bytes} {x : Option (Tag × UInt64)}
    (h : decodeAttribute data = .ok (x, rest)) :
    (x = none ∧ data = [Tag.stop.toByte] ++ rest)
    ∨ ∃ b more last tag, Tag.ofByte b = .ok tag ∧ tag ≠ .stop ∧ Varint.IsNumeral more last
      ∧ x = some (tag, .ofNat (Varint.value (more ++ [last]))) ∧ data = (b :: (more ++ [last])) ++ rest := by
  rcases data with _ | ⟨b, data⟩
  · cases h
  rcases tagged : Tag.ofByte b with e | tag
  · rw [decodeAttribute, tagged] at h
    cases h
  by_cases real : tag = .stop
  · subst real
    obtain rfl := Tag.toByte_of_ofByte tagged
    cases h
    exact .inl ⟨rfl, rfl⟩
  · rw [decodeAttribute_cons tagged real] at h
    split at h
    · cases h
    · next v behind read =>
      cases h
      obtain ⟨more, last, rfl, numeral, rfl⟩ := Varint.read_eq_ok read
      refine .inr ⟨b, more, last, tag, tagged, real, numeral, rfl, ?_⟩
      rw [List.cons_append, List.append_assoc, List.singleton_append]

/-! ### Records -/

theorem takes_end (r : Record) : Takes (decodeInto r) [Tag.stop.toByte] r where
  whole rest := decodeInto_stop (takes_stop.whole rest) r
  part k cut := decodeInto_error (takes_stop.part k cut) r

/-- An attribute, and then what the rest of the record is read from. -/
theorem takes_step {r r' : Record} {used used' : Bytes} {tag : Tag} {v : UInt64}
    (first : Takes decodeAttribute used (some (tag, v))) (later : Takes (decodeInto (r.set v tag)) used' r') :
    Takes (decodeInto r) (used ++ used') r' where
  whole rest := by
    rw [List.append_assoc, decodeInto_step (first.whole _), later.whole]
  part k cut := by
    rcases Nat.lt_or_ge k used.length with within | past
    · rw [List.take_append_of_le_length (Nat.le_of_lt within)]
      exact decodeInto_error (first.part k within) r
    · obtain ⟨k, rfl⟩ := Nat.exists_eq_add_of_le past
      rw [List.length_append, Nat.add_lt_add_iff_left] at cut
      rw [List.take_length_add_append, decodeInto_step (first.whole _), later.part k cut]

theorem length_encode (r : Record) :
    r.encode.length = (r.attributes.map fun a => (encodeAttribute a).length).sum + 1 := by
  rw [encode, List.length_append, List.length_flatMap, List.length_singleton]

/-- An attribute that is set adds no more than its own length; it may take the place of another value. -/
theorem length_encode_set (r : Record) (v : UInt64) (tag : Tag) :
    (r.set v tag).encode.length ≤ r.encode.length + (encodeAttribute (tag, v)).length := by
  rw [length_encode, length_encode]
  cases tag
  all_goals
    simp only [set, attributes, List.map_cons, List.map_nil, List.sum_cons, List.sum_nil]
    omega

theorem length_encodeAttribute_le (b : UInt8) (tag : Tag) {last : UInt8} {more : Bytes}
    (numeral : Varint.IsNumeral more last) :
    (encodeAttribute (tag, .ofNat (Varint.value (more ++ [last])))).length
      ≤ (b :: (more ++ [last])).length := by
  have shortest := Varint.encode_value_length_le numeral
  rw [encodeAttribute, List.length_cons, List.length_append, List.length_singleton]
  split_ifs
  · exact Nat.zero_le _
  · exact Nat.succ_le_succ shortest

/-- The invariant of the loop: the record read so far takes no more bytes to write than were taken off. -/
theorem exists_takes_decodeInto {r r' : Record} {data rest : Bytes} (h : decodeInto r data = .ok (r', rest)) :
    ∃ used, data = used ++ rest ∧ Takes (decodeInto r) used r'
      ∧ r'.encode.length < r.encode.length + used.length := by
  fun_induction decodeInto r data with
  | case1 r data e failed => cases h
  | case2 r data behind closed =>
    cases h
    obtain ⟨-, rfl⟩ | ⟨_, _, _, _, -, -, -, other, -⟩ := decodeAttribute_cases closed
    · exact ⟨_, rfl, takes_end _, Nat.lt_succ_self _⟩
    · cases other
  | case3 r data tag v behind taken ih =>
    obtain ⟨used', rfl, later, less⟩ := ih h
    obtain ⟨other, -⟩ | ⟨b, more, last, tag, tagged, real, numeral, same, rfl⟩ := decodeAttribute_cases taken
    · cases other
    · cases same
      refine ⟨_, (List.append_assoc ..).symm, takes_step (takes_attribute tagged real numeral) later, ?_⟩
      have set := length_encode_set r (.ofNat (Varint.value (more ++ [last]))) tag
      have short := length_encodeAttribute_le b tag numeral
      rw [List.length_append]
      omega

/-! ### Records among other bytes -/

/-- Writes an attribute behind some bytes; zero is not written. -/
def pushAttribute (dest : Bytes) : Tag × UInt64 → Bytes
  | (tag, v) => if v = 0 then dest else Varint.push (dest ++ [tag.toByte]) v

/-- Writes a record behind some bytes, attribute by attribute. -/
def encodeTo (dest : Bytes) (r : Record) : Bytes :=
  r.attributes.foldl pushAttribute dest ++ [Tag.stop.toByte]

theorem pushAttribute_eq (dest : Bytes) (a : Tag × UInt64) :
    pushAttribute dest a = dest ++ encodeAttribute a := by
  rw [pushAttribute, encodeAttribute]
  split
  · rw [List.append_nil]
  · rw [Varint.push_eq, List.append_assoc, List.singleton_append]

theorem foldl_pushAttribute (dest : Bytes) (attributes : List (Tag × UInt64)) :
    attributes.foldl pushAttribute dest = dest ++ attributes.flatMap encodeAttribute := by
  induction attributes generalizing dest with
  | nil => rw [List.flatMap_nil, List.append_nil, List.foldl_nil]
  | cons a attributes ih =>
    rw [List.foldl_cons, ih, pushAttribute_eq, List.flatMap_cons, List.append_assoc]

theorem encodeTo_eq (dest : Bytes) (r : Record) : r.encodeTo dest = dest ++ r.encode := by
  rw [encodeTo, foldl_pushAttribute, encode, List.append_assoc]

/-- Reads the record at the front of some bytes, and says how many of them it takes up. -/
def decodeSized (data : Bytes) : Except Error (Record × Nat) := do
  let (r, rest) ← decode data
  return (r, data.length - rest.length)

theorem decodeSized_of_decode {used rest : Bytes} {r : Record}
    (h : decode (used ++ rest) = .ok (r, rest)) :
    decodeSized (used ++ rest) = .ok (r, used.length) := by
  have size : (used ++ rest).length - rest.length = used.length := by
    rw [List.length_append, Nat.add_sub_cancel]
  rw [decodeSized, h, ok_bind]
  simp only [size]
  rfl

theorem exists_takes_of_decodeSized {data : Bytes} {r : Record} {n : Nat}
    (h : decodeSized data = .ok (r, n)) :
    ∃ used rest, data = used ++ rest ∧ used.length = n ∧ Takes decode used r
      ∧ r.encode.length ≤ n := by
  obtain ⟨⟨s, rest⟩, read, same⟩ := bind_eq_ok.1 h
  obtain ⟨used, rfl, takes, short⟩ := exists_takes_decodeInto read
  rw [decodeSized_of_decode read] at h
  cases h
  refine ⟨used, rest, rfl, rfl, takes, ?_⟩
  have closed : ({} : Record).encode.length = 1 := by decide
  omega

/-- A record is written behind other bytes as it is on its own, and read back from before any. Whatever
    bytes a record is read from, they are enough: the same is read if others follow, each part of them is
    found to be cut off, and the record would not be written in more. -/
theorem decodeSized_delimits (r : Record) (before rest data : Bytes) :
    (r.encodeTo before = before ++ r.encode ∧ decodeSized (r.encode ++ rest) = .ok (r, r.encode.length))
    ∧ ∀ s n, decodeSized data = .ok (s, n) →
      n ≤ data.length
      ∧ (∀ behind, decodeSized (data.take n ++ behind) = .ok (s, n))
      ∧ (∀ k < n, decodeSized (data.take k) = .error (.corrupt .recordTruncated))
      ∧ s.encode.length ≤ n := by
  refine ⟨⟨encodeTo_eq before r, decodeSized_of_decode (decode_encode r rest)⟩, ?_⟩
  intro s n h
  obtain ⟨used, rest, rfl, rfl, takes, short⟩ := exists_takes_of_decodeSized h
  refine ⟨?_, ?_, ?_, short⟩
  · rw [List.length_append]
    exact Nat.le_add_right ..
  · intro behind
    rw [List.take_left]
    exact decodeSized_of_decode (takes.whole behind)
  · intro k cut
    rw [List.take_append_of_le_length (Nat.le_of_lt cut), decodeSized, takes.part k cut]
    rfl

/-- A record with a base that comes twice, the first time in more groups than it needs, with a module that
    is zero, and with its attributes out of order. -/
def untidy : Bytes := [3, 0x85, 0x00, 1, 0, 3, 9, 0, 0xAB]

theorem decodeSized_delimits_untidy :
    decodeSized untidy = .ok ({ base := 9 }, 8)
    ∧ decodeSized (untidy.take 8 ++ [0xFF]) = .ok ({ base := 9 }, 8)
    ∧ decodeSized (untidy.take 2) = .error (.corrupt .recordTruncated)
    ∧ ({ base := 9 } : Record).encode.length ≤ 8 := by
  have read : decodeSized untidy = .ok ({ base := 9 }, 8) := by cbv
  obtain ⟨-, whole, part, short⟩ := (decodeSized_delimits {} [] [] untidy).2 _ _ read
  exact ⟨read, whole [0xFF], part 2 (by decide), short⟩

end Record

end ResourceArchive
