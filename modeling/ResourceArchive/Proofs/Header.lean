import Mathlib.Data.Prod.Lex
import ResourceArchive.Header

/-! A header is read back as it was written, in either byte order and whatever follows it. It is read from
    the first 32 bytes alone, and from fewer it is not read; written again, it is these bytes. The main
    statement says which bytes are read, and what each of the others is refused for. -/

namespace ResourceArchive.Header

theorem encode_length (h : Header) (o : ByteOrder) : (h.encode o).length = size := by
  simp only [encode, List.length_append, ByteOrder.encode32_length, ByteOrder.encode16_length, size]

theorem fields_encode (h : Header) (o : ByteOrder) (rest : Bytes) :
    fields (h.encode o ++ rest) o = h := by
  have word (w : UInt32) (bs : Bytes) : o.decode32 ((o.encode32 w ++ bs).take 4) = w := by
    rw [List.take_left' (o.encode32_length w), o.decode32_encode32]
  have half (w : UInt16) (bs : Bytes) : o.decode16 ((o.encode16 w ++ bs).take 2) = w := by
    rw [List.take_left' (o.encode16_length w), o.decode16_encode16]
  -- A field is behind those before it, each of which is passed over whole.
  have pass32 (w : UInt32) (bs : Bytes) (i : Nat) : (o.encode32 w ++ bs).drop (i + 4) = bs.drop i := by
    rw [Nat.add_comm, ← List.drop_drop, List.drop_left' (o.encode32_length w)]
  have pass16 (w : UInt16) (bs : Bytes) (i : Nat) : (o.encode16 w ++ bs).drop (i + 2) = bs.drop i := by
    rw [Nat.add_comm, ← List.drop_drop, List.drop_left' (o.encode16_length w)]
  simp only [fields, encode, List.append_assoc, List.drop_zero, word, half, pass32, pass16]

variable {o : ByteOrder} {data : Bytes} {h : Header}

/-- The fields of a header, written in their order, are the bytes that they were read from. -/
theorem encode_fields (whole : size ≤ data.length) : (fields data o).encode o = data.take size := by
  have word (i : Nat) (inside : i + 4 ≤ 32) :
      o.encode32 (o.decode32 ((data.drop i).take 4)) = (data.drop i).take 4 := by
    refine o.encode32_decode32 ?_
    rw [List.length_take, List.length_drop]
    have whole : 32 ≤ data.length := whole
    omega
  have half (i : Nat) (inside : i + 2 ≤ 32) :
      o.encode16 (o.decode16 ((data.drop i).take 2)) = (data.drop i).take 2 := by
    refine o.encode16_decode16 ?_
    rw [List.length_take, List.length_drop]
    have whole : 32 ≤ data.length := whole
    omega
  simp (disch := decide) only [encode, fields, word, half, size]
  simp only [List.drop_zero, ← List.take_add, Nat.reduceAdd]

/-- The first 32 bytes are a header that is written there. -/
theorem take_eq_encode_iff : data.take size = h.encode o ↔ size ≤ data.length ∧ fields data o = h := by
  constructor
  · intro same
    have whole : size ≤ data.length := by
      have length := congrArg List.length same
      rw [encode_length, List.length_take] at length
      omega
    refine ⟨whole, ?_⟩
    rw [← List.take_append_drop size data, same, fields_encode]
  · rintro ⟨whole, rfl⟩
    exact (encode_fields whole).symm

/-! ### Versions -/

/-- The version is later than the newest that is read, first by its major and then by its minor number. -/
def IsLater (h : Header) : Prop :=
  toLex (newestMajor, newestMinor) < toLex (h.majorVersion, h.minorVersion)

theorem isLater_iff : h.IsLater ↔ newestMajor < h.majorVersion
    ∨ (h.majorVersion = newestMajor ∧ newestMinor < h.minorVersion) := by
  rw [IsLater, Prod.Lex.toLex_lt_toLex, eq_comm (a := newestMajor)]

instance : Decidable h.IsLater := decidable_of_iff' _ isLater_iff

theorem validate_eq (h : Header) : h.validate
    = if h.IsLater then .error (.unsupportedVersion h.majorVersion h.minorVersion)
      else if h.bucketCount < h.resourceCount then .error (.corrupt .moreResourcesThanBuckets)
      else .ok () := by
  simp only [validate, isLater_iff]

theorem validate_eq_ok : h.validate = .ok () ↔ ¬h.IsLater ∧ h.resourceCount ≤ h.bucketCount := by
  rw [validate_eq, ← UInt32.not_lt]
  split_ifs with late more
  · exact iff_of_false nofun fun known => known.1 late
  · exact iff_of_false nofun fun room => room.2 more
  · exact iff_of_true rfl ⟨late, more⟩

theorem validate_ofSizes {resources buckets locations strings : UInt32} (room : resources ≤ buckets) :
    (ofSizes resources buckets locations strings).validate = .ok () := by
  have room : ¬buckets < resources := UInt32.not_lt.2 room
  rw [validate, ofSizes]
  simp only [room, if_false]
  rfl

/-! ### Steps of the reading -/

theorem length_take_four (whole : size ≤ data.length) : (data.take 4).length = 4 := by
  rw [List.length_take]
  exact Nat.min_eq_left (Nat.le_trans (by decide) whole)

/-- Without a whole magic word it is not known to be a container. -/
theorem parse_of_length_lt (short : data.length < 4) : parse data o = .error .badMagic := by
  have short : (data.take 4).length < 4 := by
    rw [List.length_take]
    omega
  rw [parse, if_pos short]

theorem encode32_opposite_ne (o : ByteOrder) : o.opposite.encode32 magicWord ≠ o.encode32 magicWord := by
  cases o <;> decide

/-- Another word than the magic word may be the one of the other order. -/
theorem parse_of_not_own (four : (data.take 4).length = 4) (own : data.take 4 ≠ o.encode32 magicWord) :
    parse data o = .error
      (if data.take 4 = o.opposite.encode32 magicWord then .wrongByteOrder else .badMagic) := by
  have foreign : o.decode32 (data.take 4) ≠ magicWord := mt (ByteOrder.decode32_eq_iff four).1 own
  rw [parse, if_neg (by omega), if_pos foreign]
  simp only [ByteOrder.decode32_eq_iff four]

/-- Once the magic word is there, the header is read if it is whole. -/
theorem parse_of_own (own : data.take 4 = o.encode32 magicWord) :
    parse data o = if data.length < size then .error (.corrupt .headerTruncated)
      else (fields data o).validate.map fun _ => fields data o := by
  have four : ¬(data.take 4).length < 4 := by
    rw [own, o.encode32_length]
    decide
  have magic : o.decode32 (data.take 4) = magicWord := by rw [own, o.decode32_encode32]
  rw [parse, if_neg four, if_neg (not_not_intro magic)]
  rfl

/-- A header that is there, in this order, only has to be valid. -/
theorem parse_of_front (front : data.take size = h.encode o) (own : h.magic = magicWord) :
    parse data o = h.validate.map fun _ => h := by
  obtain ⟨whole, rfl⟩ := take_eq_encode_iff.1 front
  have four : (data.take 4).length = 4 := length_take_four whole
  rw [parse_of_own ((ByteOrder.decode32_eq_iff four).1 own), if_neg (Nat.not_lt.2 whole)]

/-! ### What is accepted -/

/-- What is accepted is all there, and says what its fields say. -/
theorem parse_eq_ok : parse data o = .ok h ↔
    size ≤ data.length ∧ fields data o = h ∧ h.magic = magicWord ∧ h.validate = .ok () := by
  have magic : o.decode32 (data.take 4) = (fields data o).magic := rfl
  simp only [parse, magic]
  constructor
  · intro parsed
    split at parsed
    · cases parsed
    split at parsed
    · cases parsed
    split at parsed
    · cases parsed
    next word long =>
    obtain ⟨_, valid, parsed⟩ := bind_eq_ok.1 parsed
    cases parsed
    exact ⟨Nat.le_of_not_lt long, rfl, Decidable.not_not.1 word, valid⟩
  · rintro ⟨whole, rfl, word, valid⟩
    rw [length_take_four whole, if_neg (by decide), if_neg (not_not_intro word),
      if_neg (Nat.not_lt.2 whole)]
    exact bind_eq_ok.2 ⟨(), valid, rfl⟩

theorem parse_eq_ok_iff_front : parse data o = .ok h
    ↔ data.take size = h.encode o ∧ h.magic = magicWord ∧ h.validate = .ok () := by
  rw [parse_eq_ok, take_eq_encode_iff, and_assoc]

/-- A header that is valid is accepted by what reads headers. -/
theorem parse_encode {h : Header} (o : ByteOrder) (rest : Bytes) (magic : h.magic = magicWord)
    (valid : h.validate = .ok ()) : parse (h.encode o ++ rest) o = .ok h :=
  parse_eq_ok_iff_front.2 ⟨List.take_left' (h.encode_length o), magic, valid⟩

theorem own_of_parse (parsed : parse data o = .ok h) : data.take 4 = o.encode32 magicWord := by
  obtain ⟨whole, rfl, magic, -⟩ := parse_eq_ok.1 parsed
  exact (ByteOrder.decode32_eq_iff (length_take_four whole)).1 magic

/-- A header in the other byte order is told by its magic word. -/
theorem parse_opposite (parsed : parse data o = .ok h) :
    parse data o.opposite = .error .wrongByteOrder := by
  have own := own_of_parse parsed
  have four : (data.take 4).length = 4 := by rw [own, o.encode32_length]
  have other : data.take 4 ≠ o.opposite.encode32 magicWord := by
    rw [own]
    exact (encode32_opposite_ne o).symm
  have back : o.opposite.opposite = o := by cases o <;> rfl
  rw [parse_of_not_own four other, back, if_pos own]

/-! ### Cut headers -/

/-- Bytes that agree up to a position have the same stretches before it. -/
theorem take_drop_congr {bs bs' : Bytes} {n offset size : Nat} (same : bs.take n = bs'.take n)
    (inside : offset + size ≤ n) : (bs.drop offset).take size = (bs'.drop offset).take size := by
  have within (cs : Bytes) : (cs.drop offset).take size = ((cs.take n).drop offset).take size := by
    rw [List.drop_take, List.take_take, Nat.min_eq_left (by omega)]
  rw [within bs, within bs', same]

theorem parse_take (data : Bytes) {n : Nat} (whole : size ≤ n) :
    parse (data.take n) o = parse data o := by
  have whole : 32 ≤ n := whole
  have stretch (i k : Nat) (inside : i + k ≤ 32) :
      ((data.take n).drop i).take k = (data.drop i).take k :=
    take_drop_congr (n := n) (by rw [List.take_take, Nat.min_self]) (by omega)
  have first : (data.take n).take 4 = data.take 4 := stretch 0 4 (by decide)
  have fields : fields (data.take n) o = fields data o := by
    simp (disch := decide) only [Header.fields, stretch]
  have short : (data.take n).length < size ↔ data.length < size := by
    rw [List.length_take, size]
    omega
  simp only [parse, first, fields, short]

/-- With its magic word, a header that is cut off is known to be one. -/
theorem parse_take_of_lt (parsed : parse data o = .ok h) {k : Nat} (word : 4 ≤ k) (short : k < size) :
    parse (data.take k) o = .error (.corrupt .headerTruncated) := by
  have own : (data.take k).take 4 = o.encode32 magicWord := by
    rw [List.take_take, Nat.min_eq_left word, own_of_parse parsed]
  have cut : (data.take k).length < size := by
    rw [List.length_take]
    exact Nat.lt_of_le_of_lt (Nat.min_le_left ..) short
  rw [parse_of_own own, if_pos cut]

/-! ### What is refused -/

/-- What a header is refused for; a later reason counts where the earlier ones do not hold. -/
inductive Refused (o : ByteOrder) (data : Bytes) : Error → Prop
  | short (few : data.length < 4) : Refused o data .badMagic
  | foreign (own : data.take 4 ≠ o.encode32 magicWord)
    (other : data.take 4 ≠ o.opposite.encode32 magicWord) : Refused o data .badMagic
  | swapped (other : data.take 4 = o.opposite.encode32 magicWord) : Refused o data .wrongByteOrder
  | cut (own : data.take 4 = o.encode32 magicWord) (short : data.length < size) :
    Refused o data (.corrupt .headerTruncated)
  | late (h : Header) (front : data.take size = h.encode o) (own : h.magic = magicWord)
    (late : h.IsLater) : Refused o data (.unsupportedVersion h.majorVersion h.minorVersion)
  | crowded (h : Header) (front : data.take size = h.encode o) (own : h.magic = magicWord)
    (known : ¬h.IsLater) (more : h.bucketCount < h.resourceCount) :
    Refused o data (.corrupt .moreResourcesThanBuckets)

theorem refused_of_parse {e : Error} (h : parse data o = .error e) : Refused o data e := by
  by_cases four : data.length < 4
  · rw [parse_of_length_lt four] at h
    cases h
    exact .short four
  have four : (data.take 4).length = 4 := by
    rw [List.length_take]
    omega
  by_cases own : data.take 4 = o.encode32 magicWord
  · rw [parse_of_own own] at h
    split at h
    · next short =>
      cases h
      exact .cut own short
    · next whole =>
      have front := encode_fields (o := o) (Nat.not_lt.1 whole)
      have magic : (fields data o).magic = magicWord := (ByteOrder.decode32_eq_iff four).2 own
      rw [validate_eq] at h
      split_ifs at h with late more
      · cases h
        exact .late _ front.symm magic late
      · cases h
        exact .crowded _ front.symm magic late more
      · cases h
  · rw [parse_of_not_own four own] at h
    cases h
    split_ifs with other
    · exact .swapped other
    · exact .foreign own other

theorem parse_of_refused {e : Error} (h : Refused o data e) : parse data o = .error e := by
  cases h with
  | short few => exact parse_of_length_lt few
  | foreign own other =>
    by_cases few : data.length < 4
    · exact parse_of_length_lt few
    · have four : (data.take 4).length = 4 := by
        rw [List.length_take]
        omega
      rw [parse_of_not_own four own, if_neg other]
  | swapped other =>
    have four : (data.take 4).length = 4 := by rw [other, ByteOrder.encode32_length]
    have own : data.take 4 ≠ o.encode32 magicWord := by
      rw [other]
      exact encode32_opposite_ne o
    rw [parse_of_not_own four own, if_pos other]
  | cut own short => rw [parse_of_own own, if_pos short]
  | late h front own late =>
    rw [parse_of_front front own, validate_eq, if_pos late]
    rfl
  | crowded h front own known more =>
    rw [parse_of_front front own, validate_eq, if_neg known, if_pos more]
    rfl

/-- Reading a header is the converse of writing it: those bytes are read whose first 32 are a valid header
    written in the same order. Read in the other order, they are told by their magic word. All other
    bytes are refused, and for the first reason that there is. -/
theorem parse_decides (o : ByteOrder) (data : Bytes) (h : Header) :
    (parse data o = .ok h ↔ data.take size = h.encode o ∧ h.magic = magicWord ∧ h.validate = .ok ())
    ∧ (h.validate = .ok () ↔ ¬h.IsLater ∧ h.resourceCount ≤ h.bucketCount)
    ∧ (∀ rest, parse (h.encode o ++ rest) o = .ok h ↔ h.magic = magicWord ∧ h.validate = .ok ())
    ∧ (parse data o = .ok h → parse data o.opposite = .error .wrongByteOrder)
    ∧ ∀ e, parse data o = .error e ↔ Refused o data e := by
  refine ⟨parse_eq_ok_iff_front, validate_eq_ok, ?_, parse_opposite, ?_⟩
  · intro rest
    have front : (h.encode o ++ rest).take size = h.encode o := List.take_left' (h.encode_length o)
    rw [parse_eq_ok_iff_front, front]
    exact and_iff_right rfl
  · intro e
    exact ⟨refused_of_parse, parse_of_refused⟩

/-- A header whose words without meaning are not zero. -/
def marked : Header := { ofSizes 3 4 20 30 with flags := 7, reserved := 9 }

/-- The same of a later version, and with more resources than buckets. -/
def tooNew : Header := { marked with minorVersion := 1, resourceCount := 5 }

theorem parse_decides_marked :
    parse (marked.encode .big ++ [1]) .big = .ok marked
    ∧ parse (marked.encode .big ++ [1]) .little = .error .wrongByteOrder
    ∧ parse (tooNew.encode .big) .big = .error (.unsupportedVersion 1 1) := by
  have read := (parse_decides .big (marked.encode .big ++ [1]) marked).2.2.1 [1]
  have opposite := (parse_decides .big (marked.encode .big ++ [1]) marked).2.2.2.1
  have refused := (parse_decides .big (tooNew.encode .big) tooNew).2.2.2.2 (.unsupportedVersion 1 1)
  have parsed := read.2 ⟨rfl, rfl⟩
  exact ⟨parsed, opposite parsed, refused.2 (.late tooNew rfl rfl (by decide))⟩

end ResourceArchive.Header
