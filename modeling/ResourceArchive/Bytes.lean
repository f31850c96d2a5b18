/-! Byte strings, and the two orders in which a container may store its words. A word is its
    base-256 digits; the little order writes the least digit first, the big order the greatest. -/

namespace ResourceArchive

/-- A run of octets. -/
abbrev Bytes := List UInt8

/-- The order of a word's bytes. -/
inductive ByteOrder where
  | little
  | big
  deriving DecidableEq, Repr, Inhabited

/-- The `n` lowest base-256 digits of a number, least digit first. -/
def digits : Nat → Nat → Bytes
  | 0, _ => []
  | n + 1, v => UInt8.ofNat v :: digits n (v / 256)

/-- The number whose base-256 digits these are, least digit first. -/
def ofDigits : Bytes → Nat
  | [] => 0
  | b :: bs => b.toNat + 256 * ofDigits bs

/-- Number of bytes of several runs. -/
def totalLength : List Bytes → Nat
  | [] => 0
  | bs :: rest => bs.length + totalLength rest

namespace ByteOrder

/-- The order a container of the other kind uses. -/
def opposite : ByteOrder → ByteOrder
  | little => big
  | big => little

/-- Puts digits given least first into this order, and back again. -/
def arrange : ByteOrder → Bytes → Bytes
  | little, bs => bs
  | big, bs => bs.reverse

/-- The two bytes of a half word. -/
def encode16 (o : ByteOrder) (w : UInt16) : Bytes := o.arrange (digits 2 w.toNat)

/-- The four bytes of a word. -/
def encode32 (o : ByteOrder) (w : UInt32) : Bytes := o.arrange (digits 4 w.toNat)

/-- The half word that two bytes stand for. -/
def decode16 (o : ByteOrder) (bs : Bytes) : UInt16 := UInt16.ofNat (ofDigits (o.arrange bs))

/-- The word that four bytes stand for. -/
def decode32 (o : ByteOrder) (bs : Bytes) : UInt32 := UInt32.ofNat (ofDigits (o.arrange bs))

/-- The words of a table, four bytes each; bytes past the last whole word are dropped. -/
def words (o : ByteOrder) : Bytes → List UInt32
  | a :: b :: c :: d :: rest => o.decode32 [a, b, c, d] :: o.words rest
  | _ => []

end ByteOrder

theorem digits_length : ∀ n v, (digits n v).length = n
  | 0, _ => rfl
  | n + 1, v => by simp [digits, digits_length n]

theorem ofDigits_digits : ∀ n v, ofDigits (digits n v) = v % Nat.pow 256 n
  | 0, v => by simp [digits, ofDigits, Nat.mod_one]
  | n + 1, v => by
    have h : (UInt8.ofNat v).toNat = v % 256 := UInt8.toNat_ofNat
    have split : Nat.pow 256 (n + 1) = 256 * Nat.pow 256 n := Nat.mul_comm ..
    rw [digits, ofDigits, ofDigits_digits n, h, split, Nat.mod_mul]

theorem ofDigits_lt : ∀ bs : Bytes, ofDigits bs < Nat.pow 256 bs.length
  | [] => Nat.one_pos
  | b :: bs => by
    have first := b.toNat_lt
    have rest := ofDigits_lt bs
    have split : Nat.pow 256 (bs.length + 1) = 256 * Nat.pow 256 bs.length := Nat.mul_comm ..
    rw [ofDigits, List.length_cons, split]
    omega

theorem digits_ofDigits : ∀ bs : Bytes, digits bs.length (ofDigits bs) = bs
  | [] => rfl
  | b :: bs => by
    have first := b.toNat_lt
    have low : UInt8.ofNat (b.toNat + 256 * ofDigits bs) = b := by
      rw [← UInt8.toNat_inj, UInt8.toNat_ofNat']
      omega
    have high : (b.toNat + 256 * ofDigits bs) / 256 = ofDigits bs := by omega
    rw [List.length_cons, ofDigits, digits, low, high, digits_ofDigits bs]

namespace ByteOrder

theorem arrange_arrange (o : ByteOrder) (bs : Bytes) : o.arrange (o.arrange bs) = bs := by
  cases o <;> simp [arrange]

theorem arrange_length (o : ByteOrder) (bs : Bytes) : (o.arrange bs).length = bs.length := by
  cases o <;> simp [arrange]

theorem encode32_length (o : ByteOrder) (w : UInt32) : (o.encode32 w).length = 4 := by
  simp [encode32, arrange_length, digits_length]

theorem encode16_length (o : ByteOrder) (w : UInt16) : (o.encode16 w).length = 2 := by
  simp [encode16, arrange_length, digits_length]

/-- A word read in the order it was written in is the word. -/
theorem decode32_encode32 (o : ByteOrder) (w : UInt32) : o.decode32 (o.encode32 w) = w := by
  have h := w.toNat_lt
  rw [decode32, encode32, arrange_arrange, ofDigits_digits, Nat.mod_eq_of_lt (by simpa using h)]
  exact UInt32.ofNat_toNat

/-- Four bytes are the word that they stand for, written in the order they were read in. -/
theorem encode32_decode32 (o : ByteOrder) {bs : Bytes} (four : bs.length = 4) :
    o.encode32 (o.decode32 bs) = bs := by
  have length : (o.arrange bs).length = 4 := by rw [arrange_length, four]
  have fits : ofDigits (o.arrange bs) < UInt32.size := by
    have h := ofDigits_lt (o.arrange bs)
    rw [length] at h
    exact h
  rw [encode32, decode32, UInt32.toNat_ofNat_of_lt' fits, ← length, digits_ofDigits, arrange_arrange]

/-- A half word read in the order it was written in is the half word. -/
theorem decode16_encode16 (o : ByteOrder) (w : UInt16) : o.decode16 (o.encode16 w) = w := by
  have h := w.toNat_lt
  rw [decode16, encode16, arrange_arrange, ofDigits_digits, Nat.mod_eq_of_lt (by simpa using h)]
  exact UInt16.ofNat_toNat

/-- Two bytes are the half word that they stand for, written in the order they were read in. -/
theorem encode16_decode16 (o : ByteOrder) {bs : Bytes} (two : bs.length = 2) :
    o.encode16 (o.decode16 bs) = bs := by
  have length : (o.arrange bs).length = 2 := by rw [arrange_length, two]
  have fits : ofDigits (o.arrange bs) < UInt16.size := by
    have h := ofDigits_lt (o.arrange bs)
    rw [length] at h
    exact h
  rw [encode16, decode16, UInt16.toNat_ofNat_of_lt' fits, ← length, digits_ofDigits, arrange_arrange]

/-- The bytes that stand for a word are the ones it is written in. -/
theorem decode32_eq_iff {o : ByteOrder} {bs : Bytes} {w : UInt32} (four : bs.length = 4) :
    o.decode32 bs = w ↔ bs = o.encode32 w := by
  constructor
  · rintro rfl
    rw [encode32_decode32 o four]
  · rintro rfl
    rw [decode32_encode32]

theorem words_encode32_append (o : ByteOrder) (w : UInt32) (bs : Bytes) :
    o.words (o.encode32 w ++ bs) = w :: o.words bs := by
  have length := o.encode32_length w
  have read := o.decode32_encode32 w
  rcases h : o.encode32 w with _ | ⟨a, _ | ⟨b, _ | ⟨c, _ | ⟨d, _ | _⟩⟩⟩⟩
  all_goals rw [h] at length read
  all_goals simp_all [words]

theorem words_zeros_append (o : ByteOrder) (n : Nat) (bs : Bytes) :
    o.words (List.replicate (4 * n) 0 ++ bs) = List.replicate n 0 ++ o.words bs := by
  have zero : o.decode32 [0, 0, 0, 0] = 0 := by cases o <;> rfl
  induction n with
  | zero => rfl
  | succ n ih => simp [Nat.mul_add, List.replicate_succ, words, zero, ih]

end ByteOrder

end ResourceArchive
