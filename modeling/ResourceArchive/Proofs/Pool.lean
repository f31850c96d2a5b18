import Std.Data.TreeMap.Lemmas
import ResourceArchive.Location
import ResourceArchive.Proofs.Name

/-! The string pool as it is written and as it is read. A string keeps its place while others are added,
    and from its place it is read back, also when the pool has grown since. -/

namespace ResourceArchive

/-- A string is stored at an offset: its bytes, of which none is zero, and the zero that closes it. -/
def StoredAt (bs : Bytes) (offset : Nat) (s : String) : Prop :=
  0 ∉ utf8 s ∧ ∃ before after, bs = before ++ (Interner.stored s ++ after) ∧ before.length = offset

theorem StoredAt.mono {bs longer : Bytes} {offset : Nat} {s : String} (h : StoredAt bs offset s)
    (begins : bs <+: longer) : StoredAt longer offset s := by
  obtain ⟨more, rfl⟩ := begins
  obtain ⟨text, before, after, rfl, here⟩ := h
  exact ⟨text, before, after ++ more, by simp only [List.append_assoc], here⟩

/-- What is stored at an offset is what is read there. -/
theorem StoredAt.textAt {pool : Pool} {offset : Nat} {s : String}
    (h : StoredAt pool.content.toBytes offset s) (word : offset < UInt32.size) :
    pool.textAt (UInt64.ofNat offset) = .ok s := by
  obtain ⟨text, before, after, bytes, rfl⟩ := h
  have word : (UInt64.ofNat before.length).toNat = before.length := by
    rw [UInt64.toNat_ofNat', Nat.mod_eq_of_lt (Nat.lt_trans word (by decide))]
  have rest : pool.content.toBytes.drop before.length = Interner.stored s ++ after := by
    rw [bytes, List.drop_left]
  have closed : 0 ∈ Interner.stored s ++ after := by simp [Interner.stored]
  have read : (Interner.stored s ++ after).takeWhile (· != 0) = utf8 s := by
    rw [Interner.stored, List.append_assoc, List.takeWhile_append_of_pos]
    · exact List.append_nil _
    · exact fun b hb => bne_iff_ne.2 fun zero => text (zero ▸ hb)
  have found : pool.bytesAt (UInt64.ofNat before.length) = .ok (utf8 s) := by
    rw [Pool.bytesAt_eq, word, rest]
    rcases hs : Interner.stored s ++ after with _ | ⟨b, bs⟩
    · rw [hs] at closed
      cases closed
    · rw [hs] at closed read
      exact (if_pos closed).trans (congrArg _ read)
  refine bind_eq_ok.2 ⟨_, found, ?_⟩
  rw [text?_utf8]

namespace Interner

/-- Every string of a pool is stored where the pool says, and its place is a 32-bit word. -/
structure Sound (pool : Interner) : Prop where
  size_eq : pool.size = pool.bytes.length
  stored : ∀ (s : String) (offset : Nat), pool.offsets[s]? = some offset →
    StoredAt pool.bytes offset s ∧ offset < UInt32.size

theorem sound_empty : Sound {} where
  size_eq := rfl
  stored s offset h := by
    have only : ({("", 0)} : Std.TreeMap String Nat)[s]? = if compare "" s = .eq then some 0 else none :=
      Std.TreeMap.getElem?_insert
    rw [only] at h
    split at h
    · next same =>
      cases h
      cases Std.LawfulEqOrd.eq_of_compare same
      exact ⟨⟨by decide, [], [], rfl, rfl⟩, by decide⟩
    · cases h

variable {pool q : Interner} {s : String} {offset : Nat}

/-- All that a call can do: a string that is there keeps its place, and any other is put at the end, unless
    it has a NUL or the pool is full. -/
theorem intern_cases (pool : Interner) (s : String) :
    (∃ offset, pool.offsets[s]? = some offset ∧ pool.intern s = (.ok offset, pool))
    ∨ pool.offsets[s]? = none ∧ 0 ∉ utf8 s ∧ pool.size < UInt32.size
        ∧ pool.intern s = (.ok pool.size, pool.push s)
    ∨ pool.offsets[s]? = none ∧ 0 ∉ utf8 s ∧ UInt32.size ≤ pool.size
        ∧ pool.intern s = (.error (.tooLarge .stringPool), pool)
    ∨ pool.offsets[s]? = none ∧ 0 ∈ utf8 s ∧ pool.intern s = (.error (.invalidName s), pool) := by
  unfold intern
  rcases pool.offsets[s]? with _ | offset
  · by_cases text : 0 ∈ utf8 s
    · exact .inr (.inr (.inr ⟨rfl, text, if_pos text⟩))
    · by_cases full : UInt32.size ≤ pool.size
      · exact .inr (.inr (.inl ⟨rfl, text, full, (if_neg text).trans (if_pos full)⟩))
      · exact .inr (.inl ⟨rfl, text, Nat.not_le.1 full, (if_neg text).trans (if_neg full)⟩)
  · exact .inl ⟨offset, rfl, rfl⟩

theorem bytes_push (pool : Interner) (s : String) : (pool.push s).bytes = pool.bytes ++ stored s := by
  simp [bytes, push, List.flatMap_append]

/-- A string that is put at the end has its place there, and those that were there keep theirs. -/
theorem Sound.push (h : pool.Sound) (text : 0 ∉ utf8 s) (room : pool.size < UInt32.size) :
    (pool.push s).Sound ∧ StoredAt (pool.push s).bytes pool.size s := by
  have placed : StoredAt (pool.bytes ++ Interner.stored s) pool.size s :=
    ⟨text, pool.bytes, [], by rw [List.append_nil], h.size_eq.symm⟩
  rw [bytes_push]
  refine ⟨⟨?_, ?_⟩, placed⟩
  · rw [bytes_push, List.length_append, ← h.size_eq]
    rfl
  · intro t offset ht
    rw [bytes_push]
    rw [Interner.push, Std.TreeMap.getElem?_insert] at ht
    split at ht
    · next same =>
      cases ht
      cases Std.LawfulEqOrd.eq_of_compare same
      exact ⟨placed, room⟩
    · obtain ⟨before, word⟩ := h.stored t offset ht
      exact ⟨before.mono (List.prefix_append ..), word⟩

/-- A string that is added has its place, and those that were there keep theirs. -/
theorem Sound.add (h : pool.Sound) (added : pool.add s = .ok (offset, q)) :
    q.Sound ∧ pool.bytes <+: q.bytes ∧ StoredAt q.bytes offset s ∧ offset < UInt32.size := by
  rw [Interner.add, succeeded_eq_ok] at added
  rcases pool.intern_cases s with
    ⟨place, there, call⟩ | ⟨-, text, room, call⟩ | ⟨-, -, -, call⟩ | ⟨-, -, call⟩ <;> rw [call] at added
  · cases added
    exact ⟨h, List.prefix_refl _, h.stored s offset there⟩
  · cases added
    obtain ⟨sound, placed⟩ := h.push text room
    exact ⟨sound, by rw [bytes_push]; exact List.prefix_append .., placed, room⟩
  · cases added
  · cases added

end Interner

end ResourceArchive
