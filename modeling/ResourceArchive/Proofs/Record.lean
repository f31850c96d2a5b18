import ResourceArchive.Proofs.Varint
import ResourceArchive.Record

/-! Records are read back as they were written, whatever follows them. An attribute that is zero is left
    out, and read as the zero with which a record begins. -/

namespace ResourceArchive

namespace Record

/-- A tag is followed by a number. -/
theorem decodeAttribute_cons {b : UInt8} {tag : Tag} (tagged : Tag.ofByte b = .ok tag)
    (real : tag ≠ .stop) (data : Bytes) :
    decodeAttribute (b :: data) = match Varint.read data with
      | (.error e, _) => .error e
      | (.ok v, rest) => .ok (some (tag, v), rest) := by
  rw [decodeAttribute, tagged]
  cases tag with
  | stop => exact absurd rfl real
  | _ => rfl

theorem decodeAttribute_encodeAttribute {tag : Tag} {v : UInt64} (rest : Bytes) (real : tag ≠ .stop)
    (written : v ≠ 0) :
    decodeAttribute (encodeAttribute (tag, v) ++ rest) = .ok (some (tag, v), rest) := by
  rw [encodeAttribute, if_neg written, List.cons_append, decodeAttribute_cons (Tag.ofByte_toByte tag) real,
    Varint.read_encode]

theorem decodeAttribute_stop (rest : Bytes) :
    decodeAttribute (Tag.stop.toByte :: rest) = .ok (none, rest) := rfl

/-- Reading attributes sets those that are not zero. -/
theorem decodeInto_attributes (r : Record) (attributes : List (Tag × UInt64)) (rest : Bytes)
    (real : ∀ a ∈ attributes, a.1 ≠ .stop) :
    decodeInto r (attributes.flatMap encodeAttribute ++ (Tag.stop.toByte :: rest))
      = .ok (attributes.foldl (fun r a => if a.2 = 0 then r else r.set a.2 a.1) r, rest) := by
  induction attributes generalizing r with
  | nil => exact decodeInto_stop (decodeAttribute_stop rest) r
  | cons a attributes ih =>
    obtain ⟨tag, v⟩ := a
    have ih (r : Record) := ih r fun a ha => real a (.tail _ ha)
    rw [List.flatMap_cons, List.append_assoc, List.foldl_cons]
    by_cases zero : v = 0
    · rw [encodeAttribute, if_pos zero, List.nil_append, ih, if_pos zero]
    · rw [decodeInto_step (decodeAttribute_encodeAttribute _ (real _ (.head _)) zero), ih, if_neg zero]

/-- Setting an attribute that is zero to zero changes nothing, so it may be left out. -/
theorem foldl_attribute {r s : Record} {tag : Tag} {v : UInt64} {attributes : List (Tag × UInt64)}
    (zero : r.set 0 tag = r) (set : r.set v tag = s) :
    ((tag, v) :: attributes).foldl (fun r a => if a.2 = 0 then r else r.set a.2 a.1) r
      = attributes.foldl (fun r a => if a.2 = 0 then r else r.set a.2 a.1) s := by
  rw [List.foldl_cons]
  split
  · next left =>
    have left : v = 0 := left
    rw [← set, left, zero]
  · rw [← set]

/-- A record is read back as it was written. -/
theorem decode_encode (r : Record) (rest : Bytes) : decode (r.encode ++ rest) = .ok (r, rest) := by
  have real : ∀ a ∈ r.attributes, a.1 ≠ .stop := by
    simp [attributes]
  rw [decode, encode, List.append_assoc, List.singleton_append, decodeInto_attributes _ _ _ real]
  obtain ⟨m, p, b, e, o, c, u⟩ := r
  rw [attributes, foldl_attribute (s := ⟨m, 0, 0, 0, 0, 0, 0⟩) rfl rfl,
    foldl_attribute (s := ⟨m, p, 0, 0, 0, 0, 0⟩) rfl rfl,
    foldl_attribute (s := ⟨m, p, b, 0, 0, 0, 0⟩) rfl rfl,
    foldl_attribute (s := ⟨m, p, b, e, 0, 0, 0⟩) rfl rfl,
    foldl_attribute (s := ⟨m, p, b, e, o, 0, 0⟩) rfl rfl,
    foldl_attribute (s := ⟨m, p, b, e, o, c, 0⟩) rfl rfl,
    foldl_attribute (s := ⟨m, p, b, e, o, c, u⟩) rfl rfl, List.foldl_nil]

end Record

end ResourceArchive
