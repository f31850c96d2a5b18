import Std.Data.TreeMap.Lemmas
import ResourceArchive.Content

/-! Tables of words, four bytes each, as they are stored. Most words of a large table may be zero, so a
    table is made from the words that are not, and a word is read where it stands. -/

namespace ResourceArchive

structure WordTable where
  order : ByteOrder
  content : Content
  deriving DecidableEq, Repr, Inhabited

namespace WordTable

/-- The word at an index. -/
def get? (t : WordTable) (i : Nat) : Option UInt32 :=
  match t.content.range (4 * i) 4 with
  | [a, b, c, d] => some (t.order.decode32 [a, b, c, d])
  | _ => none

/-- Runs of the words from index `i` on, up to `size`: zeros but for those given, whose indices
    ascend. -/
def runs (o : ByteOrder) (size i : Nat) : List (Nat × UInt32) → List Run
  | [] => [.zeros (4 * (size - i))]
  | (j, w) :: rest =>
    .zeros (4 * (j - i)) :: .bytes (o.encode32 w).toArray :: runs o size (j + 1) rest

/-- A table of `size` words, which are zero but for those given. -/
def ofEntries (o : ByteOrder) (size : Nat) (entries : Std.TreeMap Nat UInt32) : WordTable :=
  ⟨o, .join [⟨runs o size 0 entries.toList⟩]⟩

/-- The words of a table are those that its bytes spell. -/
theorem get?_eq (t : WordTable) (i : Nat) : t.get? i = (t.order.words t.content.toBytes)[i]? := by
  rw [get?, Content.range_eq]
  generalize t.content.toBytes = bs
  induction i generalizing bs with
  | zero => rcases bs with _ | ⟨a, _ | ⟨b, _ | ⟨c, _ | ⟨d, rest⟩⟩⟩⟩ <;> simp [ByteOrder.words]
  | succ i ih =>
    rcases bs with _ | ⟨a, _ | ⟨b, _ | ⟨c, _ | ⟨d, rest⟩⟩⟩⟩
    · simp [ByteOrder.words]
    · simp [ByteOrder.words, Nat.mul_add]
    · simp [ByteOrder.words, Nat.mul_add]
    · simp [ByteOrder.words, Nat.mul_add]
    · simpa [ByteOrder.words, Nat.mul_add] using ih rest

theorem words_runs_nil (o : ByteOrder) (size i : Nat) :
    o.words ((runs o size i []).flatMap Run.toBytes) = List.replicate (size - i) 0 := by
  simpa [runs, Run.toBytes, ByteOrder.words] using o.words_zeros_append (size - i) []

theorem words_runs_cons (o : ByteOrder) (size i j : Nat) (w : UInt32)
    (rest : List (Nat × UInt32)) :
    o.words ((runs o size i ((j, w) :: rest)).flatMap Run.toBytes)
      = List.replicate (j - i) 0 ++ w
        :: o.words ((runs o size (j + 1) rest).flatMap Run.toBytes) := by
  simp [runs, Run.toBytes, ByteOrder.words_zeros_append, ByteOrder.words_encode32_append]

/-- The words of a table of `size` that is made from words at ascending indices from `i` on. -/
theorem getElem?_words_runs (o : ByteOrder) (size i k : Nat) (entries : List (Nat × UInt32))
    (ascending : entries.Pairwise (·.1 < ·.1)) (inside : ∀ e ∈ entries, i ≤ e.1 ∧ e.1 < size) :
    (o.words ((runs o size i entries).flatMap Run.toBytes))[k]?
      = if i + k < size then some ((entries.lookup (i + k)).getD 0) else none := by
  induction entries generalizing i k with
  | nil =>
    rw [words_runs_nil, List.getElem?_replicate]
    by_cases h : i + k < size
    · rw [if_pos h, if_pos (by omega)]; rfl
    · rw [if_neg h, if_neg (by omega)]
  | cons e rest ih =>
    obtain ⟨j, w⟩ := e
    obtain ⟨later, ascending⟩ := List.pairwise_cons.1 ascending
    have here : i ≤ j ∧ j < size := inside (j, w) (.head _)
    have ih := ih (j + 1) (k - (j - i) - 1) ascending fun e h =>
      ⟨later e h, (inside e (.tail _ h)).2⟩
    rw [words_runs_cons, List.getElem?_append, List.length_replicate, List.lookup_cons]
    rcases Nat.lt_trichotomy (i + k) j with h | h | h
    · have absent : rest.lookup (i + k) = none :=
        List.lookup_eq_none_iff.2 fun e he => by
          have : j < e.1 := later e he
          exact bne_iff_ne.2 (by omega)
      rw [if_pos (by omega), List.getElem?_replicate, if_pos (by omega), if_pos (by omega),
        beq_false_of_ne (by omega), absent]
      rfl
    · rw [if_neg (by omega), if_pos (by omega), beq_iff_eq.2 h, show k - (j - i) = 0 by omega]
      rfl
    · rw [if_neg (by omega), beq_false_of_ne (by omega),
        show k - (j - i) = k - (j - i) - 1 + 1 by omega, List.getElem?_cons_succ, ih]
      rw [show j + 1 + (k - (j - i) - 1) = i + k by omega]

theorem lookup_toList (entries : Std.TreeMap Nat UInt32) (i : Nat) :
    entries.toList.lookup i = entries[i]? := by
  refine Option.ext fun w => ?_
  rw [← Std.TreeMap.mem_toList_iff_getElem?_eq_some, List.lookup_eq_some_iff]
  constructor
  · rintro ⟨before, after, h, -⟩
    rw [h]
    exact List.mem_append_right _ (.head _)
  · intro h
    obtain ⟨before, after, h⟩ := List.append_of_mem h
    refine ⟨before, after, h, fun e he => bne_iff_ne.2 ?_⟩
    have ascending := entries.ordered_keys_toList
    rw [h, List.pairwise_append] at ascending
    have := Nat.compare_eq_lt.1 (ascending.2.2 e he _ (.head _))
    omega

theorem toBytes_ofEntries (o : ByteOrder) (size : Nat) (entries : Std.TreeMap Nat UInt32) :
    (ofEntries o size entries).content.toBytes
      = (runs o size 0 entries.toList).flatMap Run.toBytes := by
  rw [ofEntries, Content.toBytes_join, List.flatMap_singleton]
  rfl

/-- A table holds the words that it was made from, and zeros elsewhere. -/
theorem get?_ofEntries (o : ByteOrder) (size : Nat) (entries : Std.TreeMap Nat UInt32)
    (inside : ∀ i ∈ entries, i < size) (i : Nat) :
    (ofEntries o size entries).get? i = if i < size then some (entries[i]?.getD 0) else none := by
  have words := getElem?_words_runs o size 0 i entries.toList
    (entries.ordered_keys_toList.imp Nat.compare_eq_lt.1) fun e he =>
      ⟨Nat.zero_le _, inside _ (Std.TreeMap.mem_iff_isSome_getElem?.2 (by
        rw [Std.TreeMap.mem_toList_iff_getElem?_eq_some.1 he]; rfl))⟩
  rw [Nat.zero_add, lookup_toList] at words
  rw [get?_eq, toBytes_ofEntries]
  exact words

end WordTable

end ResourceArchive
