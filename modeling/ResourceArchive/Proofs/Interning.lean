import Mathlib.Data.List.Induction
import ResourceArchive.Proofs.Pool

/-! String pools after any sequence of calls. A call that is refused leaves the pool as it was, so a pool
    holds the distinct strings that were accepted, in the order in which they came, and every string keeps
    the place that it was given first. -/

namespace ResourceArchive.Interner

/-- The pool after a call. -/
def tryAdd (pool : Interner) (s : String) : Interner := (pool.intern s).2

/-- The pool after calls, one after another, some of which may be refused. -/
def addAll (pool : Interner) (calls : List String) : Interner := calls.foldl tryAdd pool

/-- What a call returns: the place of the string, or what it is refused for. -/
def outcome (pool : Interner) (s : String) : Except Error Nat := (pool.intern s).1

/-- The calls of a sequence, each with what it returns. -/
def outcomes (pool : Interner) : List String → List (String × Except Error Nat)
  | [] => []
  | s :: calls => (s, pool.outcome s) :: outcomes (pool.tryAdd s) calls

/-- The strings of the calls that were accepted. -/
def accepted (made : List (String × Except Error Nat)) : List String :=
  (made.filter (·.2.isOk)).map (·.1)

/-- The strings that calls make a pool hold: each that is not empty once, where it was first accepted. -/
def distinct (made : List (String × Except Error Nat)) : List String :=
  ((accepted made).filter (· ≠ "")).eraseDups

variable {pool : Interner} {s : String} {offset : Nat} {before after calls : List String}
  {made : List (String × Except Error Nat)}

/-! ### Calls -/

theorem addAll_append (pool : Interner) (before after : List String) :
    pool.addAll (before ++ after) = (pool.addAll before).addAll after :=
  List.foldl_append ..

theorem outcomes_append (pool : Interner) (before after : List String) :
    pool.outcomes (before ++ after) = pool.outcomes before ++ (pool.addAll before).outcomes after := by
  induction before generalizing pool with
  | nil => rfl
  | cons s before ih =>
    rw [List.cons_append, outcomes, outcomes, ih, addAll, addAll, List.foldl_cons, List.cons_append]

theorem map_outcomes (pool : Interner) (calls : List String) :
    (pool.outcomes calls).map (·.1) = calls := by
  induction calls generalizing pool with
  | nil => rfl
  | cons s calls ih => rw [outcomes, List.map_cons, ih]

theorem tryAdd_of_add {added : Interner} (h : pool.add s = .ok (offset, added)) :
    pool.tryAdd s = added := by
  rw [tryAdd, succeeded_eq_ok.1 h]

/-- A call that is refused leaves the pool as it was. -/
theorem tryAdd_of_error {e : Error} (refused : pool.outcome s = .error e) : pool.tryAdd s = pool := by
  rw [outcome] at refused
  rw [tryAdd]
  rcases pool.intern_cases s with ⟨_, -, call⟩ | ⟨-, -, -, call⟩ | ⟨-, -, -, call⟩ | ⟨-, -, call⟩
  · rw [call]
  · rw [call] at refused
    cases refused
  · rw [call]
  · rw [call]

/-! ### What one more call adds -/

theorem mem_accepted : s ∈ accepted made ↔ ∃ offset, (s, .ok offset) ∈ made := by
  simp only [accepted, List.mem_map, List.mem_filter]
  constructor
  · rintro ⟨⟨s, o⟩, ⟨there, ok⟩, rfl⟩
    obtain ⟨offset, rfl⟩ := eq_ok_of_isOk ok
    exact ⟨offset, there⟩
  · rintro ⟨offset, there⟩
    exact ⟨_, ⟨there, rfl⟩, rfl⟩

theorem mem_distinct : s ∈ distinct made ↔ s ≠ "" ∧ ∃ offset, (s, .ok offset) ∈ made := by
  rw [distinct, List.mem_eraseDups, List.mem_filter, mem_accepted, decide_eq_true_iff, and_comm]

theorem accepted_concat_ok (offset : Nat) :
    accepted (made ++ [(s, .ok offset)]) = accepted made ++ [s] := by
  rw [accepted, List.filter_append, List.map_append]
  rfl

theorem accepted_concat_error (e : Error) : accepted (made ++ [(s, .error e)]) = accepted made := by
  rw [accepted, List.filter_append, List.map_append]
  exact List.append_nil _

theorem eraseDups_concat (ss : List String) (s : String) :
    (ss ++ [s]).eraseDups = if s ∈ ss then ss.eraseDups else ss.eraseDups ++ [s] := by
  rw [List.eraseDups_append]
  split
  · next there =>
    have none : [s].removeAll ss = [] := by simpa [List.removeAll] using there
    rw [none, List.eraseDups_nil, List.append_nil]
  · next new =>
    have kept : [s].removeAll ss = [s] := by simp [List.removeAll, new]
    rw [kept]
    rfl

/-- An accepted call makes the pool hold its string, unless it is empty or there. -/
theorem distinct_concat_ok (offset : Nat) : distinct (made ++ [(s, .ok offset)])
    = if s = "" ∨ s ∈ distinct made then distinct made else distinct made ++ [s] := by
  rw [distinct, accepted_concat_ok, List.filter_append]
  by_cases empty : s = ""
  · have none : [s].filter (· ≠ "") = [] := by simp [empty]
    rw [if_pos (.inl empty), none, List.append_nil, distinct]
  · have one : [s].filter (· ≠ "") = [s] := by simp [empty]
    rw [one, eraseDups_concat, distinct]
    simp only [List.mem_eraseDups, empty, false_or]

theorem distinct_concat_error (e : Error) : distinct (made ++ [(s, .error e)]) = distinct made := by
  rw [distinct, accepted_concat_error, distinct]

/-! ### The invariant -/

/-- What a pool has to do with the calls that were made. -/
structure Interned (pool : Interner) (made : List (String × Except Error Nat)) : Prop where
  sound : pool.Sound
  strings_eq : pool.strings.toList = distinct made
  empty : pool.offsets[""]? = some 0
  /-- What a call returned is where the string still is. -/
  kept : ∀ s offset, (s, .ok offset) ∈ made → pool.offsets[s]? = some offset
  /-- No string is there that was not accepted. -/
  known : ∀ s ∈ pool.offsets, s = "" ∨ s ∈ distinct made

theorem interned_empty : Interned {} [] where
  sound := sound_empty
  strings_eq := rfl
  empty := by decide +kernel
  kept _ _ h := absurd h List.not_mem_nil
  known s h := by
    rcases Std.TreeMap.mem_insert.1 (show s ∈ (∅ : Std.TreeMap String Nat).insert "" 0 from h)
      with same | none
    · exact .inl (Std.LawfulEqOrd.eq_of_compare same).symm
    · exact absurd none Std.TreeMap.not_mem_emptyc

/-- A string that is there is given its place again. -/
theorem Interned.again (h : pool.Interned made) (there : pool.offsets[s]? = some offset) :
    pool.Interned (made ++ [(s, .ok offset)]) := by
  have same : distinct (made ++ [(s, .ok offset)]) = distinct made :=
    (distinct_concat_ok offset).trans (if_pos (h.known s (by
      rw [Std.TreeMap.mem_iff_isSome_getElem?, there]
      rfl)))
  refine ⟨h.sound, same ▸ h.strings_eq, h.empty, ?_, same ▸ h.known⟩
  intro t i made
  rcases List.mem_append.1 made with made | made
  · exact h.kept t i made
  · cases List.mem_singleton.1 made
    exact there

/-- A string that is put at the end has its place there, and those before it keep theirs. -/
theorem Interned.push (h : pool.Interned made) (new : pool.offsets[s]? = none) (text : 0 ∉ utf8 s)
    (room : pool.size < UInt32.size) :
    (pool.push s).Interned (made ++ [(s, .ok pool.size)]) := by
  have apart {t : String} {i : Nat} (there : pool.offsets[t]? = some i) : compare s t ≠ .eq := by
    intro same
    rw [← Std.LawfulEqOrd.eq_of_compare same, new] at there
    cases there
  have still {t : String} {i : Nat} (there : pool.offsets[t]? = some i) :
      (pool.push s).offsets[t]? = some i := by
    rw [Interner.push, Std.TreeMap.getElem?_insert, if_neg (apart there)]
    exact there
  have fresh : ¬(s = "" ∨ s ∈ distinct made) := by
    rintro (rfl | there)
    · cases new.symm.trans h.empty
    · obtain ⟨-, i, called⟩ := mem_distinct.1 there
      cases new.symm.trans (h.kept s i called)
  have more : distinct (made ++ [(s, .ok pool.size)]) = distinct made ++ [s] :=
    (distinct_concat_ok _).trans (if_neg fresh)
  refine ⟨(h.sound.push text room).1, ?_, still h.empty, ?_, ?_⟩
  · rw [more, ← h.strings_eq]
    exact Array.toList_push
  · intro t i called
    rcases List.mem_append.1 called with called | called
    · exact still (h.kept t i called)
    · cases List.mem_singleton.1 called
      exact Std.TreeMap.getElem?_insert_self
  · intro t there
    rw [more, List.mem_append, List.mem_singleton]
    rcases Std.TreeMap.mem_insert.1 there with same | there
    · exact .inr (.inr (Std.LawfulEqOrd.eq_of_compare same).symm)
    · exact (h.known t there).imp_right .inl

/-- A call that is refused leaves everything as it was. -/
theorem Interned.refused (h : pool.Interned made) (e : Error) :
    pool.Interned (made ++ [(s, .error e)]) := by
  have same : distinct (made ++ [(s, .error e)]) = distinct made := distinct_concat_error e
  refine ⟨h.sound, same ▸ h.strings_eq, h.empty, ?_, same ▸ h.known⟩
  intro t i called
  rcases List.mem_append.1 called with called | called
  · exact h.kept t i called
  · cases List.mem_singleton.1 called

/-- One call keeps the invariant, whether it is accepted or refused. -/
theorem Interned.call (h : pool.Interned made) (s : String) :
    (pool.tryAdd s).Interned (made ++ [(s, pool.outcome s)]) := by
  rw [tryAdd, outcome]
  rcases pool.intern_cases s with
    ⟨offset, there, call⟩ | ⟨new, text, room, call⟩ | ⟨-, -, -, call⟩ | ⟨-, -, call⟩ <;> rw [call]
  · exact h.again there
  · exact h.push new text room
  · exact h.refused _
  · exact h.refused _

/-- And so do all calls. -/
theorem interned_addAll (calls : List String) : (addAll {} calls).Interned (outcomes {} calls) := by
  induction calls using List.reverseRecOn with
  | nil => exact interned_empty
  | append_singleton calls s ih =>
    rw [addAll_append, outcomes_append]
    exact ih.call s

/-! ### Whole sequences -/

/-- What a call returned is read back from the bytes of the pool as it is in the end. -/
theorem Interned.textAt (h : pool.Interned made) (called : (s, .ok offset) ∈ made) :
    offset < UInt32.size ∧ (Pool.ofBytes pool.bytes).textAt (UInt64.ofNat offset) = .ok s := by
  obtain ⟨stored, word⟩ := h.sound.stored s offset (h.kept s offset called)
  refine ⟨word, StoredAt.textAt ?_ word⟩
  rw [Pool.ofBytes, Content.toBytes_ofBytes]
  exact stored

/-- A string with a NUL is never in a pool, so it is refused for that. -/
theorem Interned.outcome_of_nul (h : pool.Interned made) (nul : 0 ∈ utf8 s) :
    pool.outcome s = .error (.invalidName s) := by
  rw [outcome]
  rcases pool.intern_cases s with ⟨offset, there, -⟩ | ⟨-, text, -⟩ | ⟨-, text, -⟩ | ⟨-, -, call⟩
  · exact absurd nul (h.sound.stored s offset there).1.1
  · exact absurd nul text
  · exact absurd nul text
  · rw [call]

/-- Any other string is accepted as long as the pool is small. -/
theorem Interned.outcome_of_text (h : pool.Interned made) (text : 0 ∉ utf8 s)
    (small : pool.bytes.length < UInt32.size) : ∃ offset, pool.outcome s = .ok offset := by
  rw [← h.sound.size_eq] at small
  rw [outcome]
  rcases pool.intern_cases s with ⟨_, -, call⟩ | ⟨-, -, -, call⟩ | ⟨-, -, full, -⟩ | ⟨-, nul, -⟩
  · exact ⟨_, by rw [call]⟩
  · exact ⟨_, by rw [call]⟩
  · exact absurd small (Nat.not_lt.2 full)
  · exact absurd nul text

/-- A refused call may as well not have been made: the pool and what the other calls return are the
    same. -/
theorem outcomes_of_error {e : Error} (refused : (pool.addAll before).outcome s = .error e)
    (after : List String) :
    pool.addAll (before ++ s :: after) = pool.addAll (before ++ after)
    ∧ ∃ earlier later, pool.outcomes (before ++ after) = earlier ++ later
      ∧ earlier.map (·.1) = before
      ∧ pool.outcomes (before ++ s :: after) = earlier ++ (s, .error e) :: later := by
  have same := tryAdd_of_error refused
  refine ⟨?_, _, _, outcomes_append .., map_outcomes .., ?_⟩
  · rw [addAll_append, addAll_append, addAll, List.foldl_cons, same, ← addAll]
  · rw [outcomes_append, outcomes, same, refused]

/-- After any calls a pool is a zero and the distinct strings that were accepted, in the order in which
    they were first, each closed by a zero. Accepted calls return the same place for the same string
    and for no other, and what stands there in the end is still that string; the empty string is at 0. A
    string with a NUL is refused for it, which changes neither the pool nor any place, and no other
    string is refused while the pool is small. -/
theorem addAll_interns (calls : List String) :
    (addAll {} calls).bytes
        = 0 :: ((accepted (outcomes {} calls)).filter (· ≠ "")).eraseDups.flatMap stored
    ∧ (addAll {} calls).size = (addAll {} calls).bytes.length
    ∧ (outcomes {} calls).map (·.1) = calls
    ∧ (∀ s i t j, (s, .ok i) ∈ outcomes {} calls → (t, .ok j) ∈ outcomes {} calls → (i = j ↔ s = t))
    ∧ (∀ s i, (s, .ok i) ∈ outcomes {} calls → i < UInt32.size
        ∧ (Pool.ofBytes (addAll {} calls).bytes).textAt (UInt64.ofNat i) = .ok s)
    ∧ (addAll {} calls).outcome "" = .ok 0
    ∧ (∀ before s after, calls = before ++ s :: after → '\x00' ∈ s.toList →
        (addAll {} before).outcome s = .error (.invalidName s)
        ∧ addAll {} (before ++ [s]) = addAll {} before
        ∧ addAll {} calls = addAll {} (before ++ after)
        ∧ ∃ earlier later, outcomes {} (before ++ after) = earlier ++ later
          ∧ earlier.map (·.1) = before
          ∧ outcomes {} calls = earlier ++ (s, .error (.invalidName s)) :: later)
    ∧ ∀ s, '\x00' ∉ s.toList → (addAll {} calls).bytes.length < UInt32.size →
        ∃ i, (addAll {} calls).outcome s = .ok i := by
  have h := interned_addAll calls
  refine ⟨?_, h.sound.size_eq, map_outcomes .., ?_, fun s i => h.textAt, ?_, ?_, ?_⟩
  · rw [bytes, h.strings_eq, distinct]
  · intro s i t j called called'
    constructor
    · rintro rfl
      obtain ⟨-, first⟩ := h.textAt called
      obtain ⟨-, second⟩ := h.textAt called'
      exact Except.ok.inj (first.symm.trans second)
    · rintro rfl
      exact Option.some.inj ((h.kept s i called).symm.trans (h.kept s j called'))
  · rw [outcome]
    rcases (addAll {} calls).intern_cases "" with ⟨_, there, call⟩ | ⟨new, -⟩ | ⟨new, -⟩ | ⟨new, -⟩
    · rw [call]
      cases there.symm.trans h.empty
      rfl
    all_goals cases new.symm.trans h.empty
  · rintro before s after rfl nul
    have refused := (interned_addAll before).outcome_of_nul (zero_mem_utf8.2 nul)
    obtain ⟨left, among⟩ := outcomes_of_error refused after
    exact ⟨refused, (addAll_append ..).trans (tryAdd_of_error refused), left, among⟩
  · intro s text
    exact h.outcome_of_text (mt zero_mem_utf8.1 text)

/-- A string that comes twice, an end of it, the empty string and a string with a NUL. -/
def fiveStrings : List String := ["foo", "oo", "", "fo\x00o", "foo"]

theorem addAll_interns_fiveStrings :
    (addAll {} fiveStrings).bytes = [0, 0x66, 0x6F, 0x6F, 0, 0x6F, 0x6F, 0]
    ∧ outcomes {} fiveStrings
      = [("foo", .ok 1), ("oo", .ok 5), ("", .ok 0), ("fo\x00o", .error (.invalidName "fo\x00o")),
        ("foo", .ok 1)]
    ∧ (Pool.ofBytes (addAll {} fiveStrings).bytes).textAt 5 = .ok "oo"
    ∧ addAll {} fiveStrings = addAll {} ["foo", "oo", "", "foo"]
    ∧ ∃ i, (addAll {} fiveStrings).outcome "bar" = .ok i := by
  have called : outcomes {} fiveStrings = [("foo", .ok 1), ("oo", .ok 5), ("", .ok 0),
      ("fo\x00o", .error (.invalidName "fo\x00o")), ("foo", .ok 1)] := by
    decide +kernel
  obtain ⟨bytes, -, -, -, read, -, refused, small⟩ := addAll_interns fiveStrings
  have bytes : (addAll {} fiveStrings).bytes = [0, 0x66, 0x6F, 0x6F, 0, 0x6F, 0x6F, 0] := by
    rw [bytes, called]
    decide +kernel
  refine ⟨bytes, called, ?_, ?_, ?_⟩
  · exact (read "oo" 5 (by rw [called]; decide)).2
  · exact (refused ["foo", "oo", ""] "fo\x00o" ["foo"] rfl (by decide)).2.2.1
  · exact small "bar" (by decide) (by rw [bytes]; decide)

end ResourceArchive.Interner
