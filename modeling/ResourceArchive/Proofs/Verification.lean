import ResourceArchive.Proofs.Listing
import ResourceArchive.Proofs.RoundTrip

/-! Verifying a container, whatever its bytes are. A container passes exactly if everything that it lists
    is found under its own name and can be read, so one pass over the records answers for the list, the
    lookups and the contents. It does not answer for the places of the records: two records that say the
    same pass together, and then the container lists a name twice. -/

namespace ResourceArchive

namespace Archive

variable {o : ByteOrder} {data : Bytes} {a : Archive} {l m : Location} {ls : List Location}
  {i j n : Nat}

/-! ### Going through all locations -/

/-- What all locations pass, each of them passes. -/
theorem eq_map_ok_of_foldlM {σ : Type} {use : σ → Location → Except Error σ}
    {items : List (Except Error Location)} {state state' : σ}
    (h : items.foldlM (fun state item => item.bind (use state)) state = .ok state') :
    ∃ ls : List Location, items = ls.map .ok ∧ ∀ l ∈ ls, ∃ state state', use state l = .ok state' := by
  induction items generalizing state with
  | nil => exact ⟨[], rfl, by simp⟩
  | cons item items ih =>
    rw [List.foldlM_cons, bind_eq_ok] at h
    obtain ⟨next, first, rest⟩ := h
    rcases item with e | l
    · cases first
    · obtain ⟨ls, rfl, passed⟩ := ih rest
      refine ⟨l :: ls, rfl, fun m hm => ?_⟩
      rcases List.mem_cons.1 hm with rfl | hm
      · exact ⟨state, next, first⟩
      · exact passed m hm

theorem map_ok_injective :
    Function.Injective (List.map (Except.ok : Location → Except Error Location)) := by
  have injective : Function.Injective (Except.ok : Location → Except Error Location) :=
    fun _ _ h => Except.ok.inj h
  exact injective.list_map

/-- A list without an error has all records. -/
theorem length_of_locations (listed : a.locations = ls.map .ok) : ls.length = a.resourceCount := by
  obtain ⟨ls', failure, items, -, all⟩ := a.readingsFrom_shape (c := a.cursor) rfl
  have items : a.locations = ls'.map .ok ++ failure.toList.map .error := items
  rw [listed] at items
  rcases failure with _ | e
  · rw [Option.toList_none, List.map_nil, List.append_nil] at items
    rw [map_ok_injective items]
    exact all rfl
  · have last : .error e ∈ ls.map (Except.ok : Location → Except Error Location) := by simp [items]
    simp at last

/-- Notes the module of a location, if it has one. -/
def noteModule (modules : Std.TreeSet String) (l : Location) : Std.TreeSet String :=
  if l.name.module = "" then modules else modules.insert l.name.module

theorem mem_noteModule {modules : Std.TreeSet String} {module : String} : module ∈ noteModule modules l
    ↔ module ∈ modules ∨ module ≠ "" ∧ l.name.module = module := by
  rw [noteModule]
  split
  · next none =>
    constructor
    · exact .inl
    · rintro (noted | ⟨some, rfl⟩)
      · exact noted
      · exact absurd none some
  · next some =>
    rw [Std.TreeSet.mem_insert, Std.LawfulEqCmp.compare_eq_iff_eq]
    constructor
    · rintro (rfl | noted)
      · exact .inr ⟨some, rfl⟩
      · exact .inl noted
    · rintro (noted | ⟨-, rfl⟩)
      · exact .inr noted
      · exact .inl rfl

theorem mem_foldl_noteModule {modules : Std.TreeSet String} {module : String} :
    module ∈ ls.foldl noteModule modules
      ↔ module ∈ modules ∨ module ≠ "" ∧ ∃ l ∈ ls, l.name.module = module := by
  induction ls generalizing modules with
  | nil => simp
  | cons l ls ih =>
    rw [List.foldl_cons, ih, mem_noteModule, List.exists_mem_cons_iff, or_assoc, and_or_left]

/-- Where every location can be read, so can the modules: each that is not empty, once, in order. -/
theorem moduleNames_eq_ok (listed : a.locations = ls.map .ok) : ∃ modules, a.moduleNames = .ok modules
    ∧ modules.Pairwise (fun s t => utf8 s < utf8 t)
    ∧ ∀ module, module ∈ modules ↔ module ≠ "" ∧ ∃ l ∈ ls, l.name.module = module := by
  have noted := foldlM_map_ok (fun modules l => .ok (noteModule modules l)) noteModule ls
    (fun _ _ _ => rfl) {}
  refine ⟨(ls.foldl noteModule {}).toList, ?_, ?_, ?_⟩
  · rw [moduleNames, fold_eq, listed]
    exact congrArg (Std.TreeSet.toList <$> ·) noted
  · have ordered : (ls.foldl noteModule {}).toList.Pairwise fun s t => compare s t = .lt :=
      Std.TreeSet.ordered_toList
    exact ordered.imp fun h => utf8_lt (compareOfLessAndEq_eq_lt.1 h)
  · intro module
    rw [Std.TreeSet.mem_toList, mem_foldl_noteModule]
    simp

/-! ### What passes -/

/-- What passes is found again, and its content is there. -/
theorem of_check (h : a.check l = .ok ()) :
    a.find? l.fullName = .ok (some l) ∧ a.holds l.contentOffset l.storedSize := by
  rw [check, bind_eq_ok] at h
  obtain ⟨m, found, h⟩ := h
  by_cases same : m = some l
  · rw [if_neg (not_not.2 same)] at h
    refine ⟨same ▸ found, ?_⟩
    by_contra outside
    rw [eq_false_of_ne_true outside] at h
    cases h
  · rw [if_pos same] at h
    cases h

/-- A container that passes has a list of locations without an error, each of which passes. -/
theorem listed_of_verify (verified : a.verify = .ok n) :
    ∃ ls : List Location, a.locations = ls.map .ok ∧ ∀ l ∈ ls, a.check l = .ok () := by
  rw [verify, fold_eq] at verified
  obtain ⟨ls, listed, passed⟩ := eq_map_ok_of_foldlM verified
  refine ⟨ls, listed, fun l hl => ?_⟩
  obtain ⟨count, count', pass⟩ := passed l hl
  rcases checked : a.check l with e | _
  · rw [checked] at pass
    cases pass
  · rfl

/-- A range of a container in memory can be read exactly if the container holds it. -/
theorem Opened.exists_read_iff (h : a.Opened o data) :
    (∃ content, a.read (.ofBytes data) l = .ok content) ↔ a.holds l.contentOffset l.storedSize := by
  constructor
  · rintro ⟨content, read⟩
    by_contra outside
    rw [Archive.read, readContent, if_neg outside] at read
    cases read
  · intro held
    obtain ⟨inside, word⟩ := holds_iff.1 held
    obtain ⟨content, read, -⟩ := h.readContent_inside (h.length_eq ▸ inside) word
    exact ⟨content, read⟩

/-- All that a container lists is found under its own name, and can be read. -/
structure Serves (a : Archive) (file : Content) (ls : List Location) : Prop where
  listed : a.locations = ls.map .ok
  found : ∀ l ∈ ls, a.find? l.fullName = .ok (some l)
  read : ∀ l ∈ ls, ∃ content, a.read file l = .ok content

theorem Serves.check (serves : a.Serves (.ofBytes data) ls) (h : a.Opened o data) (hl : l ∈ ls) :
    a.check l = .ok () :=
  check_of_find? (serves.found l hl) (h.exists_read_iff.1 (serves.read l hl))

theorem Opened.serves_of_verify (h : a.Opened o data) (verified : a.verify = .ok n) :
    ∃ ls, a.Serves (.ofBytes data) ls := by
  obtain ⟨ls, listed, passed⟩ := listed_of_verify verified
  exact ⟨ls, listed, fun l hl => (of_check (passed l hl)).1,
    fun l hl => h.exists_read_iff.2 (of_check (passed l hl)).2⟩

theorem Serves.verify_eq (serves : a.Serves (.ofBytes data) ls) (h : a.Opened o data) :
    a.verify = .ok a.resourceCount := by
  rw [verify_eq_ok serves.listed fun l hl => serves.check h hl, length_of_locations serves.listed]

/-- What is served is read under its name, in full and from its own place. -/
theorem Serves.readByName (serves : a.Serves (.ofBytes data) ls) (h : a.Opened o data) (hl : l ∈ ls) :
    a.stop l ≤ data.length ∧ ∃ content, a.readByName (.ofBytes data) l.fullName = .ok content
      ∧ content.toBytes = (data.drop (a.indexSize + l.contentOffset.toNat)).take l.storedSize.toNat := by
  obtain ⟨inside, word⟩ := holds_iff.1 (h.exists_read_iff.1 (serves.read l hl))
  rw [h.length_eq] at inside
  rw [readByName_eq (serves.found l hl)]
  exact ⟨inside, h.readContent_inside inside word⟩

/-- Verifying tells whether a container serves all that it lists. If it does, all of its records were
    counted, all names and modules are known, and every name is read from its own record's place. -/
theorem verify_decides (opened : ofBytes o data = .ok a) :
    (∀ n, a.verify = .ok n ↔ n = a.resourceCount ∧ ∃ ls, a.Serves (.ofBytes data) ls)
    ∧ ∀ n, a.verify = .ok n → ∃ ls, a.Serves (.ofBytes data) ls ∧ ls.length = n
        ∧ a.entryNames = .ok (ls.map Location.fullName)
        ∧ (∃ modules, a.moduleNames = .ok modules
            ∧ ∀ module, module ∈ modules ↔ module ≠ "" ∧ ∃ l ∈ ls, l.name.module = module)
        ∧ ∀ l ∈ ls, a.stop l ≤ data.length
            ∧ ∃ content, a.readByName (.ofBytes data) l.fullName = .ok content
              ∧ content.toBytes
                = (data.drop (a.indexSize + l.contentOffset.toNat)).take l.storedSize.toNat := by
  have h := ofBytes_eq_ok.1 opened
  have decided (n : Nat) :
      a.verify = .ok n ↔ n = a.resourceCount ∧ ∃ ls, a.Serves (.ofBytes data) ls := by
    constructor
    · intro verified
      obtain ⟨ls, serves⟩ := h.serves_of_verify verified
      rw [serves.verify_eq h] at verified
      exact ⟨(Except.ok.inj verified).symm, ls, serves⟩
    · rintro ⟨rfl, ls, serves⟩
      exact serves.verify_eq h
  refine ⟨decided, fun n verified => ?_⟩
  obtain ⟨rfl, ls, serves⟩ := (decided n).1 verified
  obtain ⟨modules, known, -, member⟩ := moduleNames_eq_ok serves.listed
  exact ⟨ls, serves, length_of_locations serves.listed, entryNames_eq_ok serves.listed,
    ⟨modules, known, member⟩, fun l hl => serves.readByName h hl⟩

/-- A container with two records of one resource, `a`, which are the same. -/
def doubled : Bytes :=
  (Header.ofSizes 2 2 10 3).encode .little ++ [0xFF, 0xFF, 0xFF, 0xFF, 0xFF, 0xFF, 0xFF, 0xFF]
    ++ [0, 0, 0, 0, 5, 0, 0, 0] ++ [3, 1, 7, 2, 0] ++ [3, 1, 7, 2, 0] ++ [0, 0x61, 0] ++ [5, 6]

/-- What both records of `doubled` say. -/
def doubledLocation : Location := ⟨⟨"", "", "a", ""⟩, 0, 0, 2⟩

/-- Both records pass, and the name that they share is read. -/
theorem verify_decides_doubled : ∃ a content, ofBytes .little doubled = .ok a ∧ a.verify = .ok 2
    ∧ a.Serves (.ofBytes doubled) [doubledLocation, doubledLocation]
    ∧ a.readByName (.ofBytes doubled) "a" = .ok content ∧ content.toBytes = [5, 6] := by
  have facts : (ofBytes .little doubled).map (fun a => (a.verify, a.locations, a.indexSize))
      = .ok (.ok 2, [doubledLocation, doubledLocation].map .ok, 61) := by decide +kernel
  rcases opened : ofBytes .little doubled with e | a
  · rw [opened] at facts
    cases facts
  rw [opened, Except.map, Except.ok.injEq, Prod.mk.injEq, Prod.mk.injEq] at facts
  obtain ⟨verified, listed, size⟩ := facts
  obtain ⟨ls, serves, -, -, -, reads⟩ := (verify_decides opened).2 2 verified
  obtain rfl := map_ok_injective (serves.listed.symm.trans listed)
  obtain ⟨-, content, read, bytes⟩ := reads doubledLocation (.head _)
  rw [size] at bytes
  exact ⟨a, content, rfl, verified, serves, read, bytes⟩

/-! ### Names that are listed twice -/

/-- Places of records ascend. -/
theorem position_lt (listed : a.locations = ls.map .ok) (before : i < j) (hj : j ≤ ls.length) :
    (a.cursorAfter i).position < (a.cursorAfter j).position := by
  have items : a.locations = ls.map .ok ++ (none : Option Error).toList.map .error := by simp [listed]
  have step {k : Nat} (hk : k < ls.length) :
      (a.cursorAfter k).position < (a.cursorAfter (k + 1)).position := by
    obtain ⟨r, size, reads⟩ := exists_reads_of_call (call_of_items items hk)
    rw [reads.cursorAfter_succ]
    exact Nat.lt_add_of_pos_right reads.pos
  induction j, before using Nat.le_induction with
  | base => exact step hj
  | succ j _ ih => exact (ih (Nat.le_of_succ_le hj)).trans (step hj)

/-- The index leads every listed name to the record that listed it. -/
def LeadsToEach (a : Archive) (ls : List Location) : Prop :=
  ∀ i (hi : i < ls.length), ∃ offset,
    a.tables.candidateOffset (utf8 ls[i].fullName) = .ok (some offset)
      ∧ offset.toNat = (a.cursorAfter i).position

/-- The index leads a name to one place only, so then no name is listed twice. -/
theorem LeadsToEach.nodup (leads : a.LeadsToEach ls) (listed : a.locations = ls.map .ok) :
    (ls.map Location.fullName).Nodup := by
  rw [List.nodup_iff_pairwise_ne, List.pairwise_map, List.pairwise_iff_getElem]
  intro i j hi hj before same
  obtain ⟨offset, led, here⟩ := leads i hi
  obtain ⟨offset', led', there⟩ := leads j hj
  rw [same, led', Except.ok.injEq, Option.some.injEq] at led
  have apart := position_lt listed before (Nat.le_of_lt hj)
  rw [← here, ← there, led] at apart
  exact Nat.lt_irrefl _ apart

/-- In a container that passes, records of one name say the same of it. So a name is listed twice exactly
    if a record is, and not where the index leads every name to the record that listed it. -/
theorem verified_records_agree (verified : a.verify = .ok n) : ∃ ls : List Location,
    a.locations = ls.map .ok ∧ a.entryNames = .ok (ls.map Location.fullName)
    ∧ (∀ l ∈ ls, ∀ m ∈ ls, l.fullName = m.fullName → l = m)
    ∧ ((ls.map Location.fullName).Nodup ↔ ls.Nodup)
    ∧ (a.LeadsToEach ls → (ls.map Location.fullName).Nodup) := by
  obtain ⟨ls, listed, passed⟩ := listed_of_verify verified
  have agree : ∀ l ∈ ls, ∀ m ∈ ls, l.fullName = m.fullName → l = m := by
    intro l hl m hm same
    have found := (of_check (passed l hl)).1
    rw [same, (of_check (passed m hm)).1, Except.ok.injEq, Option.some.injEq] at found
    exact found.symm
  exact ⟨ls, listed, entryNames_eq_ok listed, agree, ⟨.of_map _, .map_on agree⟩,
    fun leads => leads.nodup listed⟩

/-- What the two records of `fourCalls` say. -/
def fourCallsLocations : List Location :=
  [⟨⟨"m", "p", "b", "x"⟩, 0, 0, 3⟩, ⟨⟨"", "", "a", ""⟩, 3, 1, 5⟩]

/-- The index of a container that was built leads to each of its records, so their names differ. -/
theorem verified_records_agree_fourCalls : ∃ a,
    (Draft.addAll {} Draft.fourCalls).toBytes.bind (ofBytes .little) = .ok a ∧ a.verify = .ok 2
      ∧ a.LeadsToEach fourCallsLocations ∧ (fourCallsLocations.map Location.fullName).Nodup := by
  have facts : ((Draft.addAll {} Draft.fourCalls).toBytes.bind (ofBytes .little)).toOption.any fun a =>
      a.verify = .ok 2 ∧ a.locations = fourCallsLocations.map .ok
      ∧ a.tables.candidateOffset (utf8 "/m/p/b.x") = .ok (some 0)
      ∧ a.tables.candidateOffset (utf8 "a") = .ok (some 11) ∧ (a.cursorAfter 1).position = 11 := by
    decide +kernel
  rcases opened : (Draft.addAll {} Draft.fourCalls).toBytes.bind (ofBytes .little) with e | a
  · rw [opened] at facts
    cases facts
  rw [opened] at facts
  obtain ⟨verified, listed, first, second, position⟩ := of_decide_eq_true facts
  obtain ⟨ls, listed', -, -, -, apart⟩ := verified_records_agree verified
  obtain rfl := map_ok_injective (listed'.symm.trans listed)
  have leads : a.LeadsToEach fourCallsLocations := by
    intro i hi
    rcases i with _ | _ | i
    · exact ⟨0, first, rfl⟩
    · exact ⟨11, second, position.symm⟩
    · exact absurd hi (by simp [fourCallsLocations])
  exact ⟨a, rfl, verified, leads, apart leads⟩

/-- The index never leads to the second record, and the container passes all the same. -/
theorem doubled_passes : ∃ a, ofBytes .little doubled = .ok a ∧ a.verify = .ok 2
    ∧ a.entryNames = .ok ["a", "a"] ∧ a.tables.candidateOffset (utf8 "a") = .ok (some 0)
    ∧ (a.cursorAfter 1).position = 5 := by
  have facts : (ofBytes .little doubled).map (fun a => (a.verify, a.entryNames,
      a.tables.candidateOffset (utf8 "a"), (a.cursorAfter 1).position))
      = .ok (.ok 2, .ok ["a", "a"], .ok (some 0), 5) := by decide +kernel
  rcases opened : ofBytes .little doubled with e | a
  · rw [opened] at facts
    cases facts
  · rw [opened, Except.map, Except.ok.injEq, Prod.mk.injEq, Prod.mk.injEq, Prod.mk.injEq] at facts
    exact ⟨a, rfl, facts⟩

end Archive

end ResourceArchive
