import ResourceArchive.Draft
import ResourceArchive.Proofs.Name

/-! Drafts after any sequence of calls. A call that is refused leaves the draft as it was, so a draft
    holds under each name the payload that was first given with it, of those that can be stored. -/

namespace ResourceArchive.Draft

/-- The draft after a call. -/
def tryAdd (d : Draft) (resource : Resource) : Draft := (d.insert resource.1 resource.2).2

/-- The draft after calls, one after another, some of which may be refused. -/
def addAll (d : Draft) (calls : List Resource) : Draft := calls.foldl tryAdd d

/-- What a call is refused for. -/
def refusal? (d : Draft) (resource : Resource) : Option Error :=
  match (d.insert resource.1 resource.2).1 with
  | .ok () => none
  | .error e => some e

/-- Whether a resource can be stored, in a draft that has not its name. -/
def isStorable (resource : Resource) : Bool :=
  resource.2.isStorable && (NameParts.split resource.1).isOk

/-- The payload that is first given with a name, of those that can be stored. -/
def firstGiven (calls : List Resource) (name : String) : Option Payload :=
  (calls.find? fun r => r.1 == name && isStorable r).map (·.2)

variable (d : Draft) (calls : List Resource) (resource : Resource) (name : String)

/-- All that a call can do: a payload that cannot be stored is refused, then a name that cannot be stored,
    then one that is taken; and any other resource is added. -/
theorem insert_cases (d : Draft) (name : String) (payload : Payload) :
    payload.isStorable = false ∧ d.insert name payload = (.error .emptyPayload, d)
    ∨ payload.isStorable ∧ (NameParts.split name).isOk = false
        ∧ d.insert name payload = (.error (.invalidName name), d)
    ∨ payload.isStorable ∧ (NameParts.split name).isOk ∧ name ∈ d.payloads
        ∧ d.insert name payload = (.error (.duplicateName name), d)
    ∨ payload.isStorable ∧ (NameParts.split name).isOk ∧ name ∉ d.payloads
        ∧ ∃ added, d.insert name payload = (.ok (), added) ∧ added.options = d.options
          ∧ added.payloads = d.payloads.insert name payload := by
  unfold insert
  split
  · next refused => exact .inl ⟨by simpa using refused, rfl⟩
  next storable =>
  have storable : payload.isStorable := by simpa using storable
  split
  · next named =>
    obtain rfl := NameParts.split_error named
    exact .inr (.inl ⟨storable, by rw [named]; rfl, rfl⟩)
  next named =>
  have isOk : (NameParts.split name).isOk := by
    rw [named]
    rfl
  split
  · next held => exact .inr (.inr (.inl ⟨storable, isOk, Std.TreeMap.mem_iff_contains.2 held, rfl⟩))
  · next new =>
    exact .inr (.inr (.inr ⟨storable, isOk, fun held => new (Std.TreeMap.mem_iff_contains.1 held), _, rfl,
      rfl, rfl⟩))

theorem refusal?_eq (d : Draft) (resource : Resource) : d.refusal? resource =
    if !resource.2.isStorable then some .emptyPayload
    else if !(NameParts.split resource.1).isOk then some (.invalidName resource.1)
    else if resource.1 ∈ d.payloads then some (.duplicateName resource.1) else none := by
  rw [refusal?]
  rcases d.insert_cases resource.1 resource.2 with
    ⟨payload, call⟩ | ⟨payload, named, call⟩ | ⟨payload, named, held, call⟩
      | ⟨payload, named, new, added, call, -⟩
  · simp [call, payload]
  · simp [call, payload, named]
  · simp [call, payload, named, held]
  · simp [call, payload, named, new]

theorem refusal?_eq_none {d : Draft} {resource : Resource} :
    d.refusal? resource = none ↔ isStorable resource ∧ resource.1 ∉ d.payloads := by
  rw [refusal?_eq, isStorable]
  split
  · simp_all
  split
  · simp_all
  split <;> simp_all

/-- A call that is refused leaves the draft as it was. -/
theorem tryAdd_of_refusal? {d : Draft} {resource : Resource} {e : Error}
    (refused : d.refusal? resource = some e) : d.tryAdd resource = d := by
  rw [refusal?] at refused
  rw [tryAdd]
  rcases d.insert_cases resource.1 resource.2 with
    ⟨-, call⟩ | ⟨-, -, call⟩ | ⟨-, -, -, call⟩ | ⟨-, -, -, added, call, -⟩
  · rw [call]
  · rw [call]
  · rw [call]
  · rw [call] at refused
    cases refused

/-- A call that is not refused adds the resource. -/
theorem tryAdd_of_taken {d : Draft} {resource : Resource} (taken : d.refusal? resource = none) :
    (d.tryAdd resource).options = d.options
      ∧ (d.tryAdd resource).payloads = d.payloads.insert resource.1 resource.2 := by
  rw [refusal?] at taken
  rw [tryAdd]
  rcases d.insert_cases resource.1 resource.2 with
    ⟨-, call⟩ | ⟨-, -, call⟩ | ⟨-, -, -, call⟩ | ⟨-, -, -, added, call, options, payloads⟩
  · rw [call] at taken
    cases taken
  · rw [call] at taken
    cases taken
  · rw [call] at taken
    cases taken
  · rw [call]
    exact ⟨options, payloads⟩

theorem options_tryAdd : (d.tryAdd resource).options = d.options := by
  rcases outcome : d.refusal? resource with _ | e
  · exact (tryAdd_of_taken outcome).1
  · rw [tryAdd_of_refusal? outcome]

/-- A call adds its payload if it can be stored and the draft has not its name, and else nothing. -/
theorem payloads_tryAdd : (d.tryAdd resource).payloads =
    if isStorable resource ∧ resource.1 ∉ d.payloads then d.payloads.insert resource.1 resource.2
    else d.payloads := by
  rcases outcome : d.refusal? resource with _ | e
  · rw [if_pos (refusal?_eq_none.1 outcome), (tryAdd_of_taken outcome).2]
  · have refused : ¬(isStorable resource ∧ resource.1 ∉ d.payloads) := by
      rw [← refusal?_eq_none, outcome]
      simp
    rw [if_neg refused, tryAdd_of_refusal? outcome]

/-- What a name has is what it had, or else what the call gives it. -/
theorem getElem?_tryAdd : (d.tryAdd resource).payloads[name]? = (d.payloads[name]?).or
    (if resource.1 = name ∧ isStorable resource then some resource.2 else none) := by
  rw [payloads_tryAdd]
  split
  · next added =>
    obtain ⟨storable, new⟩ := added
    rw [Std.TreeMap.getElem?_insert]
    by_cases same : resource.1 = name
    · rw [if_pos (Std.LawfulEqOrd.compare_eq_iff_eq.2 same), if_pos ⟨same, storable⟩,
        Std.TreeMap.getElem?_eq_none (same ▸ new)]
      rfl
    · rw [if_neg (mt Std.LawfulEqOrd.compare_eq_iff_eq.1 same), if_neg fun h => same h.1,
        Option.or_none]
  · next left =>
    split
    · next given =>
      obtain ⟨rfl, storable⟩ := given
      have held : resource.1 ∈ d.payloads := Decidable.not_not.1 fun new => left ⟨storable, new⟩
      rw [Std.TreeMap.getElem?_eq_some_getElem held]
      rfl
    · rw [Option.or_none]

/-- What a name has after calls is what it had, or else what it is first given. -/
theorem getElem?_addAll :
    (d.addAll calls).payloads[name]? = (d.payloads[name]?).or (firstGiven calls name) := by
  induction calls generalizing d with
  | nil => exact Option.or_none.symm
  | cons resource calls ih =>
    rw [addAll, List.foldl_cons, ← addAll, ih, getElem?_tryAdd, Option.or_assoc]
    congr 1
    rw [firstGiven, firstGiven, List.find?_cons]
    by_cases given : resource.1 = name ∧ isStorable resource
    · rw [if_pos given, show (resource.1 == name && isStorable resource) = true by simpa using given]
      rfl
    · rw [if_neg given, show (resource.1 == name && isStorable resource) = false by simpa using given]
      rfl

theorem options_addAll : (d.addAll calls).options = d.options := by
  induction calls generalizing d with
  | nil => rfl
  | cons resource calls ih => rw [addAll, List.foldl_cons, ← addAll, ih, options_tryAdd]

theorem storable_of_firstGiven {calls : List Resource} {name : String} {payload : Payload}
    (h : firstGiven calls name = some payload) : isStorable (name, payload) := by
  obtain ⟨⟨given, _⟩, found, rfl⟩ := Option.map_eq_some_iff.1 h
  have accepted := List.find?_some found
  rw [Bool.and_eq_true, beq_iff_eq] at accepted
  obtain ⟨rfl, storable⟩ := accepted
  exact storable

/-- A draft that began empty has what its names were first given. -/
theorem getElem?_addAll_of_empty {d : Draft} (empty : d.payloads = {}) :
    (d.addAll calls).payloads[name]? = firstGiven calls name := by
  rw [getElem?_addAll, empty, Std.TreeMap.getElem?_emptyc, Option.none_or]

/-! ### Resources in order -/

variable {d calls}

theorem mem_resources {name : String} {payload : Payload} :
    (name, payload) ∈ d.resources ↔ d.payloads[name]? = some payload :=
  Std.TreeMap.mem_toList_iff_getElem?_eq_some

theorem resources_length : d.resources.length = d.size := Std.TreeMap.length_toList

/-- Calls add only what can be stored. -/
theorem storable_of_mem_addAll (empty : d.payloads = {}) :
    ∀ r ∈ (d.addAll calls).resources, r.2.isStorable := by
  intro r hr
  have given := (getElem?_addAll_of_empty calls r.1 empty).symm.trans (mem_resources.1 hr)
  exact (Bool.and_eq_true_iff.1 (storable_of_firstGiven given)).1

/-- Resources are in ascending order of the bytes of their names. -/
theorem resources_ascending : d.resources.Pairwise fun r s => utf8 r.1 < utf8 s.1 :=
  d.payloads.ordered_keys_toList.imp fun h => utf8_lt (compareOfLessAndEq_eq_lt.1 h)

end ResourceArchive.Draft
