import Mathlib.Data.List.Basic
import ResourceArchive.Path

/-! Laws of paths. The segments of a path and its bytes determine each other, the steps of a path that is
    seen from a directory follow those of the directory, and components are what steps come to when
    nobody looks at the files. A path whose last two components are names has a parent with all steps up
    to the first of the two. -/

namespace ResourceArchive

/-- A name that something in a directory can have. -/
structure IsFileName (name : Bytes) : Prop where
  ne_nil : name ≠ []
  no_slash : Path.slash ∉ name
  no_zero : 0 ∉ name
  ne_dot : name ≠ [Path.dot]
  ne_dots : name ≠ [Path.dot, Path.dot]

namespace Path

variable {p q : Path} {s bs : Bytes} {segs before after : List Bytes}

/-! ### Segments -/

theorem segments_ne_nil (bs : Bytes) : segments bs ≠ [] := by
  cases bs with
  | nil => simp [segments]
  | cons b bs =>
    rw [segments]
    split
    · simp
    · split <;> simp

theorem segments_slash (bs : Bytes) : segments (slash :: bs) = [] :: segments bs := by
  rw [segments, if_pos rfl]

/-- A byte that is no slash belongs to the first segment. -/
theorem segments_cons {b : UInt8} (h : b ≠ slash) (split : segments bs = s :: segs) :
    segments (b :: bs) = (b :: s) :: segs := by
  rw [segments, if_neg h, split]

theorem segments_append_slash (s bs : Bytes) :
    segments (s ++ slash :: bs) = segments s ++ segments bs := by
  induction s with
  | nil => exact segments_slash bs
  | cons b s ih =>
    by_cases h : b = slash
    · subst h
      rw [List.cons_append, segments_slash, segments_slash, ih, List.cons_append]
    · obtain ⟨first, rest, split⟩ := List.exists_cons_of_ne_nil (segments_ne_nil s)
      rw [split, List.cons_append] at ih
      rw [List.cons_append, segments_cons h ih, segments_cons h split, List.cons_append]

theorem segments_of_no_slash (h : slash ∉ s) : segments s = [s] := by
  induction s with
  | nil => rfl
  | cons b s ih =>
    rw [List.mem_cons, not_or] at h
    exact segments_cons (Ne.symm h.1) (ih h.2)

theorem no_slash_of_mem_segments (h : s ∈ segments bs) : slash ∉ s := by
  induction bs generalizing s with
  | nil =>
    rw [segments, List.mem_singleton] at h
    simp [h]
  | cons b bs ih =>
    by_cases hb : b = slash
    · subst hb
      rw [segments_slash, List.mem_cons] at h
      rcases h with rfl | h
      · simp
      · exact ih h
    · obtain ⟨first, rest, split⟩ := List.exists_cons_of_ne_nil (segments_ne_nil bs)
      rw [split] at ih
      rw [segments_cons hb split, List.mem_cons] at h
      rcases h with rfl | h
      · rw [List.mem_cons, not_or]
        exact ⟨Ne.symm hb, ih (.head _)⟩
      · exact ih (.tail _ h)

/-- A byte of a segment is one of the path. -/
theorem mem_of_mem_segments {b : UInt8} (h : s ∈ segments bs) (hb : b ∈ s) : b ∈ bs := by
  induction bs generalizing s with
  | nil =>
    rw [segments, List.mem_singleton] at h
    rwa [h] at hb
  | cons c bs ih =>
    by_cases hc : c = slash
    · subst hc
      rw [segments_slash, List.mem_cons] at h
      rcases h with rfl | h
      · cases hb
      · exact .tail _ (ih h hb)
    · obtain ⟨first, rest, split⟩ := List.exists_cons_of_ne_nil (segments_ne_nil bs)
      rw [split] at ih
      rw [segments_cons hc split, List.mem_cons] at h
      rcases h with rfl | h
      · rcases List.mem_cons.1 hb with rfl | hb
        · exact .head _
        · exact .tail _ (ih (.head _) hb)
      · exact .tail _ (ih (.tail _ h) hb)

theorem unsegment_cons (s : Bytes) (h : segs ≠ []) :
    unsegment (s :: segs) = s ++ slash :: unsegment segs := by
  cases segs with
  | nil => exact absurd rfl h
  | cons => rfl

theorem unsegment_append (hb : before ≠ []) (ha : after ≠ []) :
    unsegment (before ++ after) = unsegment before ++ slash :: unsegment after := by
  induction before with
  | nil => exact absurd rfl hb
  | cons s before ih =>
    rcases before with _ | ⟨t, before⟩
    · exact unsegment_cons s ha
    · rw [List.cons_append, unsegment_cons s (by simp), unsegment_cons s (by simp), ih (by simp),
        List.append_assoc, List.cons_append]

theorem unsegment_segments (bs : Bytes) : unsegment (segments bs) = bs := by
  induction bs with
  | nil => rfl
  | cons b bs ih =>
    by_cases h : b = slash
    · subst h
      rw [segments_slash, unsegment_cons _ (segments_ne_nil bs), ih, List.nil_append]
    · obtain ⟨s, rest, split⟩ := List.exists_cons_of_ne_nil (segments_ne_nil bs)
      rw [split] at ih
      rw [segments_cons h split, ← ih]
      rcases rest with _ | ⟨t, rest⟩ <;> rfl

theorem segments_unsegment (some : segs ≠ []) (h : ∀ s ∈ segs, slash ∉ s) :
    segments (unsegment segs) = segs := by
  induction segs with
  | nil => exact absurd rfl some
  | cons s segs ih =>
    rcases segs with _ | ⟨t, rest⟩
    · exact segments_of_no_slash (h s (.head _))
    · rw [unsegment_cons s (by simp), segments_append_slash, segments_of_no_slash (h s (.head _)),
        ih (by simp) fun s hs => h s (.tail _ hs), List.singleton_append]

/-- A path that does not begin with a slash begins with its first segment. -/
theorem head_segments_ne_nil (relative : p.isAbsolute = false) (some : p.bytes ≠ []) :
    ∃ s segs, segments p.bytes = s :: segs ∧ s ≠ [] := by
  rcases p with ⟨_ | ⟨b, bs⟩⟩
  · exact absurd rfl some
  · have hb : b ≠ slash := by simpa [isAbsolute] using relative
    obtain ⟨s, segs, split⟩ := List.exists_cons_of_ne_nil (segments_ne_nil bs)
    exact ⟨b :: s, segs, segments_cons hb split, by simp⟩

/-- A segment is empty at a slash with nothing before it, nothing after it, or another slash. -/
theorem nil_mem_segments_iff : [] ∈ segments bs
    ↔ bs = [] ∨ bs.head? = some slash ∨ bs.getLast? = some slash ∨ [slash, slash] <:+: bs := by
  constructor
  · intro empty
    obtain ⟨before, after, parts⟩ := List.append_of_mem empty
    have whole := unsegment_segments bs
    rw [parts] at whole
    rcases before with _ | ⟨s, before⟩
    · rcases after with _ | ⟨t, after⟩
      · exact .inl whole.symm
      · rw [List.nil_append, unsegment_cons [] (List.cons_ne_nil t after)] at whole
        exact .inr (.inl (by rw [← whole]; rfl))
    · rw [unsegment_append (List.cons_ne_nil s before) (List.cons_ne_nil [] after)] at whole
      rcases after with _ | ⟨t, after⟩
      · exact .inr (.inr (.inl (by rw [← whole]; exact List.getLast?_concat)))
      · rw [unsegment_cons [] (List.cons_ne_nil t after)] at whole
        exact .inr (.inr (.inr ⟨unsegment (s :: before), unsegment (t :: after), by
          rw [← whole, List.append_assoc]; rfl⟩))
  · rintro (rfl | first | last | ⟨before, after, rfl⟩)
    · exact .head _
    · obtain ⟨rest, rfl⟩ := List.head?_eq_some_iff.1 first
      rw [segments_slash]
      exact .head _
    · obtain ⟨front, rfl⟩ := List.getLast?_eq_some_iff.1 last
      rw [segments_append_slash]
      exact List.mem_append_right _ (.head _)
    · rw [List.append_assoc, List.cons_append, segments_append_slash, List.cons_append, segments_slash]
      exact List.mem_append_right _ (.head _)

/-- A slash at the end leaves an empty segment after it. -/
theorem endsInSlash_eq (p : Path) :
    p.endsInSlash = (p.bytes ≠ [] && (segments p.bytes).getLast? == some []) := by
  obtain ⟨bs⟩ := p
  rcases List.eq_nil_or_concat bs with rfl | ⟨front, b, rfl⟩
  · rfl
  · rw [List.concat_eq_append]
    by_cases h : b = slash
    · subst h
      rw [segments_append_slash]
      simp [endsInSlash, segments]
    · have none : ((segments (front ++ [b])).getLast? == some []) = false := by
        refine beq_false_of_ne fun last => ?_
        obtain ⟨init, parts⟩ : ∃ init, segments (front ++ [b]) = init ++ [[]] := by
          rw [List.getLast?_eq_some_iff] at last
          exact last
        have bytes := unsegment_segments (front ++ [b])
        rw [parts] at bytes
        rcases init with _ | ⟨t, init⟩
        · simp [unsegment] at bytes
        · rw [unsegment_append (by simp) (by simp)] at bytes
          exact h (List.append_inj_right' bytes rfl |> fun e => by simpa [unsegment] using e.symm)
      rw [none, Bool.and_false]
      simp [endsInSlash, h]

/-! ### Steps -/

/-- The step of a segment. -/
def step? (s : Bytes) : Option Step := if s.isEmpty then none else some (step s)

/-- The component of a step. -/
def Step.component? : Step → Option Component
  | .here | .slash => none
  | .up => some .up
  | .name n => some (.name n)

theorem baseSteps_eq (p : Path) : p.baseSteps = (segments p.bytes).filterMap step? := rfl

theorem component?_eq (s : Bytes) : component? s = (step? s).bind Step.component? := by
  fun_cases component? s with
  | case1 | case2 | case3 => rfl
  | case4 s some notDot notDots =>
    have some : s.isEmpty = false := by simpa using some
    rw [step?, some, if_neg Bool.false_ne_true, step]
    · rfl
    · exact notDot
    · exact notDots

theorem step?_of_isFileName (h : IsFileName s) : step? s = some (.name s) := by
  have some : s.isEmpty = false := by simpa using h.ne_nil
  rw [step?, some, if_neg Bool.false_ne_true, step]
  · exact h.ne_dot
  · exact h.ne_dots

theorem eq_dot_of_step? (h : step? s = some .here) : s = [dot] := by
  rw [step?] at h
  split at h
  · cases h
  · rw [Option.some.injEq] at h
    fun_cases step s with
    | case1 => rfl
    | case2 => cases h
    | case3 s notDot notDots =>
      rw [step] at h
      · cases h
      · exact notDot
      · exact notDots

theorem baseSteps_ofNames {names : List Bytes} (h : ∀ name ∈ names, IsFileName name) :
    (ofNames names).baseSteps = names.map .name := by
  rcases names with _ | ⟨n, names⟩
  · rfl
  · rw [baseSteps_eq, ofNames, segments_unsegment (by simp) fun s hs => (h s hs).no_slash,
      ← List.filterMap_eq_map]
    exact List.filterMap_congr fun s hs => step?_of_isFileName (h s hs)

theorem front_join (p : Path) (relative : q.isAbsolute = false) : p.bytes <+: (p.join q).bytes := by
  rw [join, relative, if_neg Bool.false_ne_true]
  split
  · exact List.prefix_append _ _
  · exact List.prefix_append _ _

/-- The steps of a path that is seen from a directory follow those of the directory. -/
theorem baseSteps_join (p : Path) (relative : q.isAbsolute = false) :
    (p.join q).baseSteps = p.baseSteps ++ q.baseSteps := by
  rw [join, relative, if_neg Bool.false_ne_true]
  split
  · next closed =>
    rcases closed with none | last
    · rw [baseSteps_eq, baseSteps_eq, baseSteps_eq, none]
      rfl
    · obtain ⟨front, split⟩ := List.getLast?_eq_some_iff.1 last
      rw [baseSteps_eq, baseSteps_eq, baseSteps_eq, split, List.append_assoc, List.singleton_append,
        segments_append_slash, segments_append_slash, List.filterMap_append, List.filterMap_append]
      simp [segments, step?]
  · rw [baseSteps_eq, segments_append_slash, List.filterMap_append]
    rfl

theorem endsInSlash_join (p : Path) (relative : q.isAbsolute = false) (some : q.bytes ≠ []) :
    (p.join q).endsInSlash = q.endsInSlash := by
  rw [join, relative, if_neg Bool.false_ne_true]
  split
  · simp only [endsInSlash, List.getLast?_append_of_ne_nil _ some]
  · simp only [endsInSlash, List.getLast?_append_of_ne_nil p.bytes (List.cons_ne_nil slash q.bytes)]
    obtain ⟨b, bs, split⟩ := List.exists_cons_of_ne_nil some
    rw [split, List.getLast?_cons_cons]

/-! ### Components -/

/-- What a path begins with that is no step: the root, or a leading dot. -/
def lead (p : Path) : List Component :=
  if p.isAbsolute then [.root] else if p.baseSteps.head? = some .here then [.here] else []

theorem filterMap_component? (segs : List Bytes) :
    segs.filterMap component? = (segs.filterMap step?).filterMap Step.component? := by
  rw [List.filterMap_filterMap]
  exact List.filterMap_congr fun s _ => component?_eq s

/-- What is broken off a path, and its segments: those of the body, after an empty one before the root, and
    in place of an empty one for a leading dot. -/
theorem anchor_cases (p : Path) :
    (∃ body, p.anchor = ([slash], body) ∧ p.lead = [.root] ∧ segments p.bytes = [] :: segments body)
      ∨ (∃ body segs, p.anchor = ([dot], body) ∧ p.lead = [.here] ∧ segments body = [] :: segs
          ∧ segments p.bytes = [dot] :: segs)
      ∨ p.anchor = ([], p.bytes) ∧ p.lead = [] := by
  obtain ⟨bs⟩ := p
  by_cases absolute : isAbsolute ⟨bs⟩
  · obtain ⟨rest, rfl⟩ : ∃ rest, bs = slash :: rest := by
      rcases bs with _ | ⟨b, rest⟩
      · cases absolute
      · exact ⟨rest, by simpa [isAbsolute] using absolute⟩
    exact .inl ⟨rest, by rw [anchor, if_pos absolute]; rfl, if_pos absolute, segments_slash rest⟩
  by_cases dotted : bs = [dot] ∨ [dot, slash].isPrefixOf bs
  · obtain ⟨rest, rfl, segs, split⟩ : ∃ rest, bs = dot :: rest ∧ ∃ segs, segments rest = [] :: segs := by
      rcases dotted with rfl | h
      · exact ⟨[], rfl, [], rfl⟩
      · obtain ⟨more, rfl⟩ := List.isPrefixOf_iff_prefix.1 h
        exact ⟨slash :: more, rfl, _, segments_slash more⟩
    have whole : segments (dot :: rest) = [dot] :: segs := segments_cons (by decide) split
    have first : (baseSteps ⟨dot :: rest⟩).head? = some .here := by
      rw [baseSteps_eq, whole]
      rfl
    refine .inr (.inl ⟨rest, segs, ?_, ?_, split, whole⟩)
    · rw [anchor, if_neg absolute, if_pos dotted]
      rfl
    · rw [lead, if_neg absolute, if_pos first]
  · refine .inr (.inr ⟨by rw [anchor, if_neg absolute, if_neg dotted], ?_⟩)
    rw [lead, if_neg absolute, if_neg]
    intro h
    rcases bs with _ | ⟨b, bs⟩
    · cases h
    obtain ⟨s, segs, split, some⟩ := head_segments_ne_nil (by simpa using absolute)
      (List.cons_ne_nil b bs)
    rw [baseSteps_eq, split] at h
    have first : step? s = Option.some .here := by
      rcases hs : step? s with _ | t
      · simp [step?, some] at hs
      · rw [List.filterMap_cons_some hs] at h
        exact h
    have dotSegment : s = [dot] := eq_dot_of_step? first
    have bytes := unsegment_segments (b :: bs)
    rw [split, dotSegment] at bytes
    refine dotted ?_
    rcases segs with _ | ⟨t, segs⟩
    · exact .inl bytes.symm
    · refine .inr ?_
      rw [← bytes, unsegment_cons _ (by simp), List.isPrefixOf_iff_prefix]
      exact ⟨unsegment (t :: segs), rfl⟩

/-- Components are the steps without those that stay, after what the path begins with. -/
theorem components_eq (p : Path) : p.components = p.lead ++ p.baseSteps.filterMap Step.component? := by
  rw [components, baseSteps_eq, ← filterMap_component?]
  rcases p.anchor_cases with ⟨body, anchored, lead, split⟩ | ⟨body, segs, anchored, lead, split, whole⟩
    | ⟨anchored, lead⟩
  · rw [anchored, lead, split]
    rfl
  · rw [anchored, lead, whole]
    simp only [split]
    rfl
  · rw [anchored, lead]
    rfl

theorem components_of_isAbsolute (h : p.isAbsolute) :
    p.components = .root :: p.baseSteps.filterMap Step.component? := by
  rw [components_eq, lead, if_pos h, List.singleton_append]

/-- The names among the components of a path without NUL are names that something can have. -/
theorem isFileName_of_mem_components {n : Bytes} (clean : 0 ∉ p.bytes)
    (h : .name n ∈ p.components) : IsFileName n := by
  have unled : .name n ∉ p.lead := by
    rw [lead]
    split
    · simp
    · split <;> simp
  rw [components_eq, List.mem_append] at h
  have h := h.resolve_left unled
  rw [baseSteps_eq, ← filterMap_component?, List.mem_filterMap] at h
  obtain ⟨s, hs, found⟩ := h
  revert found
  fun_cases component? s with
  | case1 | case2 | case3 => rintro ⟨⟩
  | case4 s some notDot notDots =>
    rintro ⟨⟩
    exact ⟨some, no_slash_of_mem_segments hs, fun zero => clean (mem_of_mem_segments hs zero), notDot,
      notDots⟩

theorem isAbsolute_join (some : p.bytes ≠ []) (relative : q.isAbsolute = false) :
    (p.join q).isAbsolute = p.isAbsolute := by
  rw [join, relative, if_neg Bool.false_ne_true]
  obtain ⟨b, bs, split⟩ := List.exists_cons_of_ne_nil some
  split <;> simp [isAbsolute, split]

/-- What a path begins with is what its directory does. -/
theorem lead_join (some : p.bytes ≠ []) (relative : q.isAbsolute = false) : (p.join q).lead = p.lead := by
  rw [lead, lead, isAbsolute_join some relative, baseSteps_join p relative]
  by_cases absolute : p.isAbsolute
  · rw [if_pos absolute, if_pos absolute]
  · obtain ⟨s, segs, split, filled⟩ := head_segments_ne_nil (by simpa using absolute) some
    have first : p.baseSteps = step s :: segs.filterMap step? := by
      rw [baseSteps_eq, split]
      exact List.filterMap_cons_some (by simp [step?, filled])
    rw [first]
    rfl

/-- The components of a path that is seen from a directory follow those of the directory. A dot at the
    beginning of the path would be lost. -/
theorem components_join (p : Path) (relative : q.isAbsolute = false)
    (undotted : q.baseSteps.head? ≠ some .here) :
    (p.join q).components = p.components ++ q.components := by
  by_cases none : p.bytes = []
  · obtain ⟨bs⟩ := p
    obtain rfl : bs = [] := none
    have same : (⟨[]⟩ : Path).join q = q := by simp [join, relative]
    rw [same]
    rfl
  · have lead := lead_join none relative
    have unled : q.lead = [] := by
      rw [Path.lead, relative, if_neg Bool.false_ne_true, if_neg undotted]
    rw [components_eq, components_eq p, components_eq q, lead, unled, baseSteps_join p relative,
      List.filterMap_append, List.nil_append, List.append_assoc]

/-! ### Parents -/

theorem firstNames_append (h : (component? s).isSome) :
    firstNames ((before.countP fun s => (component? s).isSome) + 1) (before ++ s :: after)
      = before ++ [s] := by
  induction before with
  | nil =>
    rw [List.countP_nil, List.nil_append, firstNames, if_pos h]
    rcases after with _ | _ <;> rfl
  | cons t before ih =>
    rw [List.cons_append, firstNames]
    by_cases ht : (component? t).isSome
    · rw [if_pos ht, List.countP_cons_of_pos (by simpa using ht), ih, List.cons_append]
    · rw [if_neg ht, List.countP_cons_of_neg (by simpa using ht), ih, List.cons_append]

/-- The segments before the last one with a component, as many as have components of their own. -/
theorem firstNames_of_last {a b : Bytes} {segs mid : List Bytes} {n : Nat}
    (parts : segs = before ++ a :: (mid ++ b :: after)) (ha : (component? a).isSome)
    (hb : (component? b).isSome) (hmid : ∀ s ∈ mid, component? s = none)
    (hafter : ∀ s ∈ after, component? s = none)
    (count : (segs.countP fun s => (component? s).isSome) = n + 1) :
    firstNames n segs = before ++ [a] := by
  have silent {l : List Bytes} (h : ∀ s ∈ l, component? s = none) :
      (l.countP fun s => (component? s).isSome) = 0 := by
    rw [List.countP_eq_zero]
    intro s hs
    simp [h s hs]
  have n_eq : n = (before.countP fun s => (component? s).isSome) + 1 := by
    rw [parts, List.countP_append, List.countP_cons_of_pos (by exact ha), List.countP_append,
      List.countP_cons_of_pos (by exact hb), silent hmid, silent hafter] at count
    omega
  rw [n_eq, parts, firstNames_append ha]

/-- The parent of a path ends with the last segment but one that has a component. -/
theorem parent?_of_segments {a b : Bytes} {mid : List Bytes}
    (parts : segments p.bytes = before ++ a :: (mid ++ b :: after)) (ha : (component? a).isSome)
    (hb : (component? b).isSome) (hmid : ∀ s ∈ mid, component? s = none)
    (hafter : ∀ s ∈ after, component? s = none) :
    p.parent? = some ⟨unsegment (before ++ [a])⟩ := by
  -- The body has the same segments but for the first, which is in `before` if it is not kept whole.
  have fromBody (anchor : Bytes) (before' : List Bytes) (body : Bytes)
      (anchored : p.anchor = (anchor, body))
      (parts' : segments body = before' ++ a :: (mid ++ b :: after))
      (same : anchor ++ unsegment (before' ++ [a]) = unsegment (before ++ [a])) :
      p.parent? = some ⟨unsegment (before ++ [a])⟩ := by
    rw [parent?, anchored]
    simp only
    split
    · next none =>
      rw [List.countP_eq_zero] at none
      exact absurd ha (none a (by simp [parts']))
    · next n count => rw [firstNames_of_last parts' ha hb hmid hafter count, same]
  have noComponent {s : Bytes} {segs : List Bytes} (silent : component? s = none)
      (h : before ++ a :: (mid ++ b :: after) = s :: segs) :
      ∃ rest, before = s :: rest ∧ segs = rest ++ a :: (mid ++ b :: after) := by
    rcases before with _ | ⟨t, rest⟩
    · rw [List.nil_append, List.cons.injEq] at h
      rw [h.1, silent] at ha
      cases ha
    · rw [List.cons_append, List.cons.injEq] at h
      exact ⟨rest, by rw [h.1], h.2.symm⟩
  rcases p.anchor_cases with ⟨body, anchored, -, split⟩ | ⟨body, segs, anchored, -, split, whole⟩
    | ⟨anchored, -⟩
  · obtain ⟨before', rfl, parts'⟩ := noComponent rfl (parts.symm.trans split)
    refine fromBody [slash] before' body anchored parts' ?_
    show [slash] ++ _ = unsegment ([] :: (before' ++ [a]))
    rw [unsegment_cons [] (by simp)]
    rfl
  · obtain ⟨before', rfl, parts'⟩ := noComponent rfl (parts.symm.trans whole)
    refine fromBody [dot] ([] :: before') body anchored (by rw [split, parts', List.cons_append]) ?_
    show [dot] ++ unsegment ([] :: (before' ++ [a])) = unsegment ([dot] :: (before' ++ [a]))
    rw [unsegment_cons [] (by simp), unsegment_cons [dot] (by simp)]
    rfl
  · exact fromBody [] before p.bytes anchored parts rfl

theorem step?_eq_name {n : Bytes} (h : step? s = some (.name n)) : component? s = some (.name n) := by
  rw [component?_eq, h]
  rfl

/-- A path whose steps end with two names, with dots between and after them, has a parent whose steps end
    with the first of the two. -/
theorem exists_parent? {steps mid after : List Step} {a b : Bytes}
    (parts : p.baseSteps = steps ++ .name a :: (mid ++ .name b :: after))
    (hmid : ∀ s ∈ mid, s = .here) (hafter : ∀ s ∈ after, s = .here) :
    ∃ q, p.parent? = some q ∧ q.baseSteps = steps ++ [.name a] ∧ q.endsInSlash = false
      ∧ q.bytes ≠ [] ∧ q.bytes <+: p.bytes := by
  have silent {segs : List Bytes} {steps : List Step} (h : ∀ s ∈ steps, s = .here)
      (split : segs.filterMap step? = steps) : ∀ s ∈ segs, component? s = none := by
    intro s hs
    rw [component?_eq]
    rcases step : step? s with _ | t
    · rfl
    · rw [h t (split ▸ List.mem_filterMap.2 ⟨s, hs, step⟩)]
      rfl
  rw [baseSteps_eq] at parts
  obtain ⟨front, back, whole, hfront, hback⟩ := List.filterMap_eq_append_iff.1 parts
  obtain ⟨skipped, sa, rest, rfl, hskipped, ha, hrest⟩ := List.filterMap_eq_cons_iff.1 hback
  obtain ⟨between, last, rfl, hbetween, hlast⟩ := List.filterMap_eq_append_iff.1 hrest
  obtain ⟨skipped', sb, rest', rfl, hskipped', hb, hrest'⟩ := List.filterMap_eq_cons_iff.1 hlast
  have segs : segments p.bytes = (front ++ skipped) ++ sa :: ((between ++ skipped') ++ sb :: rest') := by
    simp [whole]
  have parent := parent?_of_segments segs (by simp [step?_eq_name ha]) (by simp [step?_eq_name hb])
    (by
      intro s hs
      rcases List.mem_append.1 hs with hs | hs
      · exact silent hmid hbetween s hs
      · rw [component?_eq, hskipped' s hs]
        rfl)
    (silent hafter hrest')
  refine ⟨_, parent, ?_⟩
  have kept : segments (unsegment (front ++ skipped ++ [sa])) = front ++ skipped ++ [sa] := by
    refine segments_unsegment (by simp) fun s hs => ?_
    have within : s ∈ segments p.bytes := by
      rw [segs]
      rcases List.mem_append.1 hs with hs | hs
      · exact List.mem_append_left _ hs
      · simp [List.mem_singleton.1 hs]
    exact no_slash_of_mem_segments within
  have some : sa ≠ [] := by
    rintro rfl
    cases ha
  refine ⟨?_, ?_, ?_, ?_⟩
  · rw [baseSteps_eq, kept, List.filterMap_append, List.filterMap_append, hfront,
      List.filterMap_eq_nil_iff.2 hskipped, List.append_nil, List.filterMap_cons_some ha]
    rfl
  · rw [endsInSlash_eq, kept]
    simp [some]
  · intro none
    rw [show unsegment (front ++ skipped ++ [sa]) = [] from none] at kept
    have last := congrArg List.getLast? kept
    simp [segments, Ne.symm some] at last
  · have split : segments p.bytes
        = (front ++ skipped ++ [sa]) ++ ((between ++ skipped') ++ sb :: rest') := by simp [segs]
    rw [← unsegment_segments p.bytes, split,
      unsegment_append (List.append_ne_nil_of_right_ne_nil _ (List.cons_ne_nil sa []))
        (List.append_ne_nil_of_right_ne_nil _ (List.cons_ne_nil sb rest'))]
    exact List.prefix_append _ _

/-! ### Paths of names -/

section Names

variable {names : List Bytes} (named : ∀ n ∈ names, IsFileName n)
include named

theorem segments_ofNames (filled : names ≠ []) : segments (ofNames names).bytes = names :=
  segments_unsegment filled fun n hn => (named n hn).no_slash

theorem isAbsolute_ofNames : (ofNames names).isAbsolute = false := by
  rcases names with _ | ⟨n, _ | ⟨m, rest⟩⟩
  · rfl
  all_goals
    obtain ⟨b, bs, split⟩ := List.exists_cons_of_ne_nil (named n (.head _)).ne_nil
    have first : b ≠ slash := by
      rintro rfl
      exact (named n (.head _)).no_slash (by simp [split])
    simp [isAbsolute, ofNames, unsegment, split, first]

theorem endsInSlash_ofNames : (ofNames names).endsInSlash = false := by
  rcases names with _ | ⟨n, names⟩
  · rfl
  · have some : [] ∉ n :: names := fun none => (named [] none).ne_nil rfl
    rw [endsInSlash_eq, segments_ofNames named (List.cons_ne_nil _ _)]
    have last : (n :: names).getLast? ≠ .some [] := fun h => some (List.mem_of_getLast? h)
    simp [last]

theorem no_zero_ofNames : 0 ∉ (ofNames names).bytes := by
  induction names with
  | nil => simp [ofNames, unsegment]
  | cons n names ih =>
    rw [List.forall_mem_cons] at named
    rcases names with _ | ⟨m, rest⟩
    · exact named.1.no_zero
    · have others : 0 ∉ unsegment (m :: rest) := ih named.2
      rw [ofNames, unsegment_cons n (List.cons_ne_nil m rest)]
      simp [slash, named.1.no_zero, others]

theorem components_ofNames : (ofNames names).components = names.map .name := by
  have head : (names.map Step.name).head? ≠ some .here := by cases names <;> simp
  rw [components_eq, lead, isAbsolute_ofNames named, if_neg Bool.false_ne_true, baseSteps_ofNames named,
    if_neg head, List.filterMap_map]
  exact congrFun List.filterMap_eq_map _

theorem ofNames_ne_nil (filled : names ≠ []) : (ofNames names).bytes ≠ [] := by
  intro none
  have segs := segments_ofNames named filled
  rw [none] at segs
  exact (named [] (by rw [← segs]; exact .head _)).ne_nil rfl

theorem endsInSlash_join_ofNames (p : Path) (filled : names ≠ []) :
    (p.join (ofNames names)).endsInSlash = false := by
  rw [endsInSlash_join p (isAbsolute_ofNames named) (ofNames_ne_nil named filled), endsInSlash_ofNames named]

theorem baseSteps_join_ofNames (p : Path) :
    (p.join (ofNames names)).baseSteps = p.baseSteps ++ names.map .name := by
  rw [baseSteps_join p (isAbsolute_ofNames named), baseSteps_ofNames named]

end Names

end Path

end ResourceArchive
