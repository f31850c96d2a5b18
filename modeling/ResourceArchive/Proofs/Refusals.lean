import ResourceArchive.Proofs.Find
import ResourceArchive.Proofs.Varint

/-! What a lookup can be refused for. The bytes of an index may contradict each other, and a record may
    have an attribute that is unknown; but an open container has both its tables, so no lookup is
    refused for their sizes, and none asks for a word past the end of a table. -/

namespace ResourceArchive

/-- What the bytes of an index can be refused for when a name is looked up. -/
def Error.OfIndex : Error → Prop
  | .corrupt what => what ≠ .tableSizeMismatch
  | .unknownAttribute _ => True
  | _ => False

theorem ofIndex_corrupt {what : Corruption} (h : what ≠ .tableSizeMismatch) :
    (Error.corrupt what).OfIndex := h

section

variable {α β : Type} {x : Except Error α} {f : α → Except Error β}

/-- Two steps are refused for what one of them is refused for. -/
theorem ofIndex_bind (hx : ∀ e, x = .error e → e.OfIndex) (hf : ∀ a e, f a = .error e → e.OfIndex)
    (e : Error) (h : (x >>= f) = .error e) : e.OfIndex := by
  rcases bind_eq_error.1 h with h | ⟨a, -, h⟩
  · exact hx e h
  · exact hf a e h

end

theorem Varint.read_error {data rest : Bytes} {e : Error} (h : read data = (.error e, rest)) :
    e.OfIndex := by
  cases front data with
  | numeral numeral behind => rw [read_numeral numeral] at h; cases h
  | cut goesOn short =>
    rw [read_cut goesOn short] at h
    cases h
    exact ofIndex_corrupt (by decide)
  | overlong goesOn tenth large behind =>
    rw [read_overlong goesOn tenth large] at h
    cases h
    exact ofIndex_corrupt (by decide)

theorem Tag.ofByte_error {b : UInt8} {e : Error} (h : ofByte b = .error e) : e.OfIndex := by
  unfold ofByte at h
  split at h
  all_goals cases h
  trivial

namespace Record

theorem decodeAttribute_error {data : Bytes} {e : Error} (h : decodeAttribute data = .error e) :
    e.OfIndex := by
  cases data with
  | nil => cases h; exact ofIndex_corrupt (by decide)
  | cons b rest =>
    rw [decodeAttribute] at h
    split at h
    · next tag => cases h; exact Tag.ofByte_error tag
    · cases h
    · split at h
      · next read => cases h; exact Varint.read_error read
      · cases h

theorem decodeInto_error_ofIndex {r : Record} {data : Bytes} {e : Error}
    (h : decodeInto r data = .error e) : e.OfIndex := by
  fun_induction decodeInto r data with
  | case1 r data e' he => cases h; exact decodeAttribute_error he
  | case2 => cases h
  | case3 r data tag v rest he ih => exact ih h

theorem decodeInto_suffix {r s : Record} {data rest : Bytes} (h : decodeInto r data = .ok (s, rest)) :
    rest <:+ data := by
  fun_induction decodeInto r data with
  | case1 => cases h
  | case2 r data rest he => cases h; exact (decodeAttribute_suffix he).1
  | case3 r data tag v rest he ih => exact (ih h).trans (decodeAttribute_suffix he).1

end Record

namespace Pool

theorem bytesAt_error {pool : Pool} {offset : UInt64} {e : Error} (h : pool.bytesAt offset = .error e) :
    e.OfIndex := by
  rw [bytesAt] at h
  split at h
  · cases h; exact ofIndex_corrupt (by decide)
  · split at h
    · cases h
    · cases h; exact ofIndex_corrupt (by decide)

theorem textAt_error {pool : Pool} {offset : UInt64} (e : Error) (h : pool.textAt offset = .error e) :
    e.OfIndex := by
  refine ofIndex_bind (fun _ => bytesAt_error) ?_ e h
  intro bs e h
  split at h
  · cases h
  · cases h; exact ofIndex_corrupt (by decide)

end Pool

theorem Location.resolve_error {record : Record} {pool : Pool} (e : Error)
    (h : resolve record pool = .error e) : e.OfIndex := by
  refine ofIndex_bind Pool.textAt_error ?_ e h
  intro module
  refine ofIndex_bind Pool.textAt_error ?_
  intro parent
  refine ofIndex_bind Pool.textAt_error ?_
  intro base
  refine ofIndex_bind Pool.textAt_error ?_
  intro extension e h
  cases h

theorem Location.decode_error {data : Bytes} {pool : Pool} (e : Error)
    (h : decode data pool = .error e) : e.OfIndex :=
  ofIndex_bind (fun _ => Record.decodeInto_error_ofIndex) (fun _ => resolve_error) e h

namespace Tables

variable {redirects offsets : Content} {size : Nat} {o : ByteOrder} {t : Tables}

/-- Tables that are taken have a word for every bucket and for every slot. -/
theorem get?_of_ofContents (h : ofContents redirects offsets size o = .ok t) {i : Nat} (hi : i < t.size) :
    (∃ r, t.redirect i = .ok r) ∧ ∃ offset, t.offset i = .ok offset := by
  unfold ofContents at h
  split at h
  · next length =>
    cases h
    have word (c : Content) (hc : c.length = 4 * size) : ∃ w, (WordTable.mk o c).get? i = some w := by
      have hi : i < size := hi
      have four : (c.range (4 * i) 4).length = 4 := by
        rw [Content.range_length]
        omega
      match bytes : c.range (4 * i) 4, four with
      | [a, b, c', d], _ => exact ⟨o.decode32 [a, b, c', d], by rw [WordTable.get?, bytes]⟩
    obtain ⟨w, hw⟩ := word redirects length.1
    obtain ⟨offset, ho⟩ := word offsets length.2
    exact ⟨⟨.ofWord w, by rw [redirect, hw]⟩, offset, by rw [Tables.offset, ho]⟩
  · cases h

/-- A lookup asks for no word that is not there. It can only be sent past the end of the index. -/
theorem candidateSlot_error (h : ofContents redirects offsets size o = .ok t) {name : Bytes} (e : Error)
    (he : t.candidateSlot name = .error e) : e.OfIndex := by
  rw [candidateSlot] at he
  split at he
  · cases he
  · next nonempty =>
    refine ofIndex_bind ?_ ?_ e he
    · intro e he
      obtain ⟨⟨r, hr⟩, -⟩ := get?_of_ofContents h (Hash.bucket_lt name (Nat.pos_of_ne_zero nonempty))
      rw [hr] at he
      cases he
    · intro r e he
      split at he
      · cases he
      · split at he
        · cases he
        · cases he; exact ofIndex_corrupt (by decide)

theorem candidateSlot_lt {name : Bytes} {slot : Nat} (h : t.candidateSlot name = .ok (some slot)) :
    slot < t.size := by
  rw [candidateSlot] at h
  split at h
  · cases h
  · obtain ⟨r, -, h⟩ := bind_eq_ok.1 h
    split at h
    · cases h
    · split at h
      · next inside => cases h; exact inside
      · cases h

theorem candidateOffset_error (h : ofContents redirects offsets size o = .ok t) {name : Bytes}
    (e : Error) (he : t.candidateOffset name = .error e) : e.OfIndex := by
  rcases bind_eq_error.1 he with he | ⟨found, led, he⟩
  · exact candidateSlot_error h e he
  · rcases found with _ | slot
    · cases he
    · obtain ⟨-, offset, there⟩ := get?_of_ofContents h (candidateSlot_lt led)
      have he : some <$> t.offset slot = .error e := he
      rw [there] at he
      cases he

end Tables

namespace Archive

variable {o : ByteOrder} {data : Bytes} {a : Archive}

theorem locationAt_error {offset : UInt32} (e : Error) (h : a.locationAt offset = .error e) :
    e.OfIndex := by
  unfold locationAt at h
  split at h
  · cases h; exact ofIndex_corrupt (by decide)
  · rw [Location.readAt_eq] at h
    exact Location.decode_error e h

theorem Opened.find?_error (h : a.Opened o data) {name : String} (e : Error)
    (he : a.find? name = .error e) : e.OfIndex := by
  refine ofIndex_bind (Tables.candidateOffset_error h.tables) ?_ e he
  intro found e he
  rcases found with _ | offset
  · cases he
  · exact ofIndex_bind locationAt_error (fun _ _ he => by cases he) e he

end Archive

end ResourceArchive
