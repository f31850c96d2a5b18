import ResourceArchive.Proofs.Items

/-! What a container says of the calls that built it. The calls that were accepted, in whatever order and
    with whatever refused calls among them, determine the container, and the container determines them:
    two sequences of calls build the same container, or fail alike, exactly where the same resources were
    accepted. -/

namespace ResourceArchive

namespace Draft

variable {d d' : Draft} {calls before after : List Resource} {resource other : Resource}
  {name : String} {payload : Payload}

/-! ### Calls and their outcomes -/

/-- The calls of a sequence, each with what it is refused for. -/
def outcomes (d : Draft) : List Resource → List (Resource × Option Error)
  | [] => []
  | resource :: calls => (resource, d.refusal? resource) :: outcomes (d.tryAdd resource) calls

/-- The calls of a sequence that are accepted. -/
def accepted (d : Draft) (calls : List Resource) : List Resource :=
  ((d.outcomes calls).filter (·.2.isNone)).map (·.1)

theorem refusal?_cases {e : Error} (refused : d.refusal? resource = some e) :
    e = .emptyPayload ∨ e = .invalidName resource.1 ∨ e = .duplicateName resource.1 := by
  rw [refusal?_eq] at refused
  split at refused
  · exact .inl (Option.some.inj refused).symm
  split at refused
  · exact .inr (.inl (Option.some.inj refused).symm)
  split at refused
  · exact .inr (.inr (Option.some.inj refused).symm)
  · cases refused

/-! ### What is accepted -/

theorem accepted_cons (d : Draft) (resource : Resource) (calls : List Resource) :
    d.accepted (resource :: calls) = if d.refusal? resource = none
      then resource :: (d.tryAdd resource).accepted calls else (d.tryAdd resource).accepted calls := by
  rw [accepted, outcomes, List.filter_cons]
  rcases d.refusal? resource with _ | e <;> rfl

theorem addAll_append (d : Draft) (before after : List Resource) :
    d.addAll (before ++ after) = (d.addAll before).addAll after :=
  List.foldl_append ..

/-- A call gives a name its payload exactly where it is accepted. -/
theorem getElem?_tryAdd_eq_some : (d.tryAdd resource).payloads[name]? = some payload
    ↔ d.payloads[name]? = some payload ∨ d.refusal? resource = none ∧ resource = (name, payload) := by
  rw [getElem?_tryAdd, Option.or_eq_some_iff]
  refine or_congr_right ⟨?_, ?_⟩
  · rintro ⟨none, given⟩
    split at given
    · next matching =>
      obtain ⟨rfl, storable⟩ := matching
      cases given
      have new : resource.1 ∉ d.payloads := by
        rw [Std.TreeMap.mem_iff_isSome_getElem?, none]
        decide
      exact ⟨refusal?_eq_none.2 ⟨storable, new⟩, rfl⟩
    · cases given
  · rintro ⟨taken, rfl⟩
    obtain ⟨storable, new⟩ := refusal?_eq_none.1 taken
    exact ⟨Std.TreeMap.getElem?_eq_none new, if_pos ⟨rfl, storable⟩⟩

/-- After calls a draft holds what it held and the calls that were accepted. -/
theorem getElem?_addAll_eq_some : (d.addAll calls).payloads[name]? = some payload
    ↔ d.payloads[name]? = some payload ∨ (name, payload) ∈ d.accepted calls := by
  induction calls generalizing d with
  | nil => simp [addAll, accepted, outcomes]
  | cons resource calls ih =>
    rw [addAll, List.foldl_cons, ← addAll, ih, getElem?_tryAdd_eq_some, accepted_cons, or_assoc]
    by_cases taken : d.refusal? resource = none
    · rw [if_pos taken, List.mem_cons, eq_comm (a := resource)]
      simp only [taken, true_and]
    · rw [if_neg taken]
      simp only [taken, false_and, false_or]

/-- A call that is refused may as well not have been made. -/
theorem addAll_of_refusal? {e : Error} (refused : (d.addAll before).refusal? resource = some e) :
    d.addAll (before ++ resource :: after) = d.addAll (before ++ after) := by
  rw [addAll_append, addAll_append, addAll, List.foldl_cons, tryAdd_of_refusal? refused, ← addAll]

/-- The payload that is accepted with a name is kept, whatever calls follow. -/
theorem getElem?_addAll_of_accepted (taken : (d.addAll before).refusal? resource = none) :
    (d.addAll (before ++ resource :: after)).payloads[resource.1]? = some resource.2 := by
  rw [addAll_append, addAll, List.foldl_cons, ← addAll, getElem?_addAll_eq_some]
  exact .inl (getElem?_tryAdd_eq_some.2 (.inr ⟨taken, rfl⟩))

/-! ### Order of calls -/

/-- A call does not matter to one with another name. -/
theorem refusal?_tryAdd (apart : resource.1 ≠ other.1) :
    (d.tryAdd resource).refusal? other = d.refusal? other := by
  have held : other.1 ∈ (d.tryAdd resource).payloads ↔ other.1 ∈ d.payloads := by
    rw [Std.TreeMap.mem_iff_isSome_getElem?, Std.TreeMap.mem_iff_isSome_getElem?, getElem?_tryAdd,
      if_neg fun h => apart h.1, Option.or_none]
  simp only [refusal?_eq, held]

/-- Where no name comes twice, each call has the outcome that it would have alone. -/
theorem outcomes_eq (distinct : (calls.map Prod.fst).Nodup) :
    d.outcomes calls = calls.map fun resource => (resource, d.refusal? resource) := by
  induction calls generalizing d with
  | nil => rfl
  | cons resource calls ih =>
    obtain ⟨new, distinct⟩ := List.nodup_cons.1 distinct
    rw [outcomes, ih distinct, List.map_cons]
    congr 1
    refine List.map_congr_left ?_
    intro other ho
    rw [refusal?_tryAdd fun same => new (List.mem_map.2 ⟨other, ho, same.symm⟩)]

/-! ### From calls to containers -/

theorem mem_items_addAll (options : Options) (calls : List Resource) (x : Item) :
    x ∈ (addAll { options := options } calls).items
      ↔ x ∈ (accepted { options := options } calls).map item := by
  have held (name : String) (payload : Payload) :
      (name, payload) ∈ (addAll { options := options } calls).resources
        ↔ (name, payload) ∈ accepted { options := options } calls := by
    have none : ({ options := options } : Draft).payloads[name]? = none := Std.TreeMap.getElem?_emptyc
    rw [mem_resources, getElem?_addAll_eq_some, none]
    simp
  simp only [items, List.mem_map, Prod.exists, held]

/-- Two sequences of calls build the same container, or fail alike, where the same resources were
    accepted; and one container is built from the same resources only, if its length is a 64-bit word, as
    that of every byte string in memory is. A call that is refused changes nothing, the payload that is
    accepted first with a name is kept, and where no name comes twice the order of the calls does not
    matter to any of them. -/
theorem toBytes_eq_iff_accepted (options : Options) (calls calls' : List Resource) :
    ((∀ x, x ∈ (accepted { options := options } calls).map item
          ↔ x ∈ (accepted { options := options } calls').map item) →
        (addAll { options := options } calls).toBytes = (addAll { options := options } calls').toBytes)
    ∧ (∀ data, data.length < UInt64.size →
        (addAll { options := options } calls).toBytes = .ok data →
        (addAll { options := options } calls').toBytes = .ok data →
        ∀ x, x ∈ (accepted { options := options } calls).map item
          ↔ x ∈ (accepted { options := options } calls').map item)
    ∧ (∀ before resource after e, calls = before ++ resource :: after →
        ((addAll { options := options } before).insert resource.1 resource.2).1 = .error e →
        (e = .emptyPayload ∨ e = .invalidName resource.1 ∨ e = .duplicateName resource.1)
        ∧ ((addAll { options := options } before).insert resource.1 resource.2).2
          = addAll { options := options } before
        ∧ addAll { options := options } calls = addAll { options := options } (before ++ after))
    ∧ (∀ before resource after, calls = before ++ resource :: after →
        ((addAll { options := options } before).insert resource.1 resource.2).1 = .ok () →
        (addAll { options := options } calls).payloads[resource.1]? = some resource.2)
    ∧ ((calls.map Prod.fst).Nodup → calls.Perm calls' →
        (outcomes { options := options } calls).Perm (outcomes { options := options } calls')) := by
  have order (calls : List Resource) :
      (addAll { options := options } calls).options = options := options_addAll ..
  refine ⟨?_, ?_, ?_, ?_, ?_⟩
  · intro same
    refine toBytes_congr ((order _).trans (order _).symm) (items_eq_of_mem_iff ?_)
    intro x
    rw [mem_items_addAll, mem_items_addAll, same]
  · intro data word built built' x
    have same := items_eq_of_toBytes_eq (by rw [order, order]) word (storable_of_mem_addAll rfl)
      (storable_of_mem_addAll rfl) built built'
    rw [← mem_items_addAll, ← mem_items_addAll, same]
  · rintro before resource after e rfl refused
    have refused : (addAll { options := options } before).refusal? resource = some e := by
      rw [refusal?, refused]
    exact ⟨refusal?_cases refused, tryAdd_of_refusal? refused, addAll_of_refusal? refused⟩
  · rintro before resource after rfl taken
    refine getElem?_addAll_of_accepted ?_
    rw [refusal?, taken]
  · intro distinct same
    rw [outcomes_eq distinct, outcomes_eq ((same.map Prod.fst).nodup_iff.1 distinct)]
    exact same.map _

/-- The resources of `fourCalls` in another order, and one that is refused for its payload. -/
def threeCalls : List Resource :=
  [("a", .compressed (.ofBytes [9]) 5), ("b", .compressed (.ofBytes []) 1),
    ("/m/p/b.x", .plain (.ofBytes [1, 2, 3]))]

theorem toBytes_eq_iff_accepted_fourCalls :
    (∃ data, (addAll {} fourCalls).toBytes = .ok data ∧ (addAll {} threeCalls).toBytes = .ok data
      ∧ ∀ x, x ∈ (accepted {} fourCalls).map item ↔ x ∈ (accepted {} threeCalls).map item)
    ∧ addAll {} fourCalls = addAll {} (fourCalls.take 2 ++ fourCalls.drop 3)
    ∧ (addAll {} fourCalls).payloads["a"]? = some (.compressed (.ofBytes [9]) 5)
    ∧ (outcomes {} threeCalls).Perm (outcomes {} threeCalls.reverse) := by
  have accepted₄ : (accepted {} fourCalls).map item
      = [⟨"/m/p/b.x", [1, 2, 3], false, 3⟩, ⟨"a", [9], true, 5⟩] := by decide +kernel
  have accepted₃ : (accepted {} threeCalls).map item
      = [⟨"a", [9], true, 5⟩, ⟨"/m/p/b.x", [1, 2, 3], false, 3⟩] := by decide +kernel
  have short : (addAll {} fourCalls).toBytes.toOption.any (·.length < UInt64.size) := by
    decide +kernel
  obtain ⟨same, back, refused, taken, -⟩ := toBytes_eq_iff_accepted {} fourCalls threeCalls
  obtain ⟨-, -, -, -, order⟩ := toBytes_eq_iff_accepted {} threeCalls threeCalls.reverse
  have same := same fun x => by
    rw [accepted₄, accepted₃]
    exact (List.Perm.swap ..).mem_iff
  refine ⟨?_, ?_, ?_, order (by decide) (List.reverse_perm _).symm⟩
  · rcases built : (addAll {} fourCalls).toBytes with e | data
    · rw [built] at short
      cases short
    · rw [built] at short same
      exact ⟨data, rfl, same.symm, back data (of_decide_eq_true short) built same.symm⟩
  · exact (refused (fourCalls.take 2) ("a", .plain (.ofBytes [])) (fourCalls.drop 3)
      (.duplicateName "a") rfl rfl).2.2
  · exact taken (fourCalls.take 1) ("a", .compressed (.ofBytes [9]) 5) (fourCalls.drop 2) rfl rfl

end Draft

end ResourceArchive
