import Mathlib.Data.List.Pairwise
import Std.Data.TreeMap.Lemmas
import Std.Data.TreeSet.Lemmas
import ResourceArchive.Extraction
import ResourceArchive.Proofs.Ancestors

/-! Names that can be extracted, one by one and together. A name has a path if no segment of it is empty
    or two dots, and the first is no dot. In the order of their components, paths that begin with a path
    come right after it, so that a pass over them in order, which keeps the path that came last and what
    it begins with, meets every path that begins with another one. It finds what going up from each path,
    parent by parent, would find first. Names are accepted exactly if each has a path and no path begins
    with another. -/

namespace ResourceArchive

/-! ### Steps -/

/-- Steps that all succeed. -/
theorem mapM_eq_ok {ε α β : Type} {f : α → Except ε β} {items : List α} {results : List β} :
    items.mapM f = .ok results ↔ items.map f = results.map .ok := by
  induction items generalizing results with
  | nil => cases results <;> simp [pure, Except.pure]
  | cons item items ih =>
    rw [List.mapM_cons]
    rcases first : f item with e | r
    · cases results <;> simp [bind, Except.bind, first]
    · rcases others : items.mapM f with e | rs
      · cases results with
        | nil => simp [bind, Except.bind]
        | cons r' rs' =>
          have none := mt ih.2 (by rw [others]; simp : items.mapM f ≠ .ok rs')
          simp [bind, Except.bind, none]
      · have given := ih.1 others
        cases results with
        | nil => simp [bind, Except.bind, pure, Except.pure]
        | cons r' rs' =>
          have injective : Function.Injective (Except.ok : β → Except ε β) := fun _ _ h => Except.ok.inj h
          simp [bind, Except.bind, pure, Except.pure, first, given, injective.list_map.eq_iff]

namespace Extraction

/-! ### One name -/

section Name

open ResourceArchive.Path (segments slash dot)

variable {dest p : Path} {name : String} {s : Bytes} {segs : List Bytes}

/-- A name as a path seen from the destination. -/
def relative (name : String) : Path := ⟨(utf8 name).dropWhile (· == slash)⟩

/-- The names on the way from the destination to the file of a resource. -/
def below (name : String) : List Bytes := (segments (relative name).bytes).filter (· ≠ [dot])

/-- Segments that are names or dots. -/
def IsPlain (segs : List Bytes) : Prop := ∀ s ∈ segs, s ≠ [] ∧ s ≠ [dot, dot]

theorem step?_eq (some : s ≠ []) (notDots : s ≠ [dot, dot]) :
    Path.step? s = if s = [dot] then .some .here else .some (.name s) := by
  have filled : s.isEmpty = false := by simpa using some
  rw [Path.step?, filled, if_neg Bool.false_ne_true]
  split
  · next h => rw [h]; rfl
  · next h =>
    rw [Path.step]
    · exact h
    · exact notDots

/-- The steps of plain segments are to stay and to go down. -/
theorem filterMap_step? (plain : IsPlain segs) :
    segs.filterMap Path.step? = segs.map fun s => if s = [dot] then .here else .name s := by
  rw [← List.filterMap_eq_map]
  refine List.filterMap_congr fun s hs => ?_
  rw [step?_eq (plain s hs).1 (plain s hs).2]
  split <;> simp_all

theorem relative_isAbsolute (full : [] ∉ segments p.bytes) : p.isAbsolute = false := by
  by_contra absolute
  obtain ⟨_ | ⟨b, bs⟩⟩ := p
  · exact absolute rfl
  · obtain rfl : b = slash := by simpa [Path.isAbsolute] using absolute
    exact full (by rw [Path.segments_slash]; exact .head _)

theorem isName_of_component?_iff (some : s ≠ []) :
    (∀ c, Path.component? s = .some c → isName c) ↔ s ≠ [dot, dot] := by
  fun_cases Path.component? s with
  | case1 => exact absurd rfl some
  | case2 => simp [dot]
  | case3 => simp [isName, dot]
  | case4 s _ _ notDots =>
    refine ⟨fun _ => notDots, fun _ c found => ?_⟩
    cases found
    rfl

/-- The components of a path without empty segments are names exactly if its segments are plain and the
    first is no dot. -/
theorem all_isName_iff (full : [] ∉ segments p.bytes) : p.components.all isName
    ↔ IsPlain (segments p.bytes) ∧ (segments p.bytes).head? ≠ some [dot] := by
  have filled : ∀ s ∈ segments p.bytes, s ≠ [] := fun s hs none => full (none ▸ hs)
  have names : ((segments p.bytes).filterMap Path.component?).all isName
      ↔ IsPlain (segments p.bytes) := by
    rw [List.all_eq_true, IsPlain]
    simp only [List.mem_filterMap, forall_exists_index, and_imp]
    constructor
    · intro all s hs
      exact ⟨filled s hs, (isName_of_component?_iff (filled s hs)).1 fun c => all c s hs⟩
    · intro plain c s hs found
      exact (isName_of_component?_iff (filled s hs)).2 (plain s hs).2 c found
  have lead : p.lead.all isName ↔ (segments p.bytes).head? ≠ some [dot] := by
    obtain ⟨s, rest, split⟩ := List.exists_cons_of_ne_nil (Path.segments_ne_nil p.bytes)
    have first : s ≠ [] := filled s (by rw [split]; exact .head _)
    have step : Path.step? s = some (Path.step s) := by simp [Path.step?, first]
    have head : p.baseSteps.head? = some (Path.step s) := by
      rw [Path.baseSteps_eq, split, List.filterMap_cons_some step, List.head?_cons]
    rw [Path.lead, relative_isAbsolute full, if_neg Bool.false_ne_true, head, split, List.head?_cons]
    by_cases dotted : s = [dot]
    · have here : Path.step [dot] = .here := rfl
      rw [dotted, here]
      simp [isName]
    · have other : Path.step s ≠ .here := fun here => dotted (Path.eq_dot_of_step? (here ▸ step))
      simp [dotted, other]
  rw [Path.components_eq, Path.baseSteps_eq, ← Path.filterMap_component?, List.all_append,
    Bool.and_eq_true_iff, names, lead, and_comm]

/-- Which names have paths, and which. -/
theorem path_eq_ok : path dest name = .ok p ↔ IsPlain (segments (relative name).bytes)
    ∧ (segments (relative name).bytes).head? ≠ some [dot] ∧ dest.join (relative name) = p := by
  show (if [] ∈ segments (relative name).bytes then Except.error (Refusal.noFileName name)
    else if (relative name).components.all isName then .ok (dest.join (relative name))
    else .error (.outside name)) = .ok p ↔ _
  by_cases full : [] ∈ segments (relative name).bytes
  · rw [if_pos full]
    constructor
    · rintro ⟨⟩
    · rintro ⟨plain, -⟩
      exact absurd rfl (plain [] full).1
  · rw [if_neg full]
    by_cases names : (relative name).components.all isName
    · obtain ⟨plain, head⟩ := (all_isName_iff full).1 names
      rw [if_pos names, Except.ok.injEq]
      exact ⟨fun same => ⟨plain, head, same⟩, fun h => h.2.2⟩
    · rw [if_neg names]
      constructor
      · rintro ⟨⟩
      · rintro ⟨plain, head, -⟩
        exact absurd ((all_isName_iff full).2 ⟨plain, head⟩) names

theorem not_mem_of_isPlain (plain : IsPlain segs) : [] ∉ segs := fun none => (plain [] none).1 rfl

/-- The steps to a resource do not begin by staying. -/
theorem head?_baseSteps (plain : IsPlain (segments p.bytes))
    (head : (segments p.bytes).head? ≠ some [dot]) : p.baseSteps.head? ≠ some .here := by
  rw [Path.baseSteps_eq, filterMap_step? plain, List.head?_map]
  rcases first : (segments p.bytes).head? with _ | s
  · simp
  · rw [first] at head
    have other : s ≠ [dot] := fun same => head (congrArg some same)
    simp [other]

/-- The path of a resource is the destination's, and below it the resource's own names. -/
theorem components_of_path (h : path dest name = .ok p) :
    p.components = dest.components ++ (below name).map .name := by
  obtain ⟨plain, head, rfl⟩ := path_eq_ok.1 h
  have undotted := head?_baseSteps plain head
  have isRelative := relative_isAbsolute (not_mem_of_isPlain plain)
  have lead : (relative name).lead = [] := by
    rw [Path.lead, isRelative, if_neg Bool.false_ne_true, if_neg undotted]
  have names (segs : List Bytes) :
      (segs.map fun s => if s = [dot] then Path.Step.here else .name s).filterMap Path.Step.component?
        = (segs.filter (· ≠ [dot])).map .name := by
    induction segs with
    | nil => rfl
    | cons s segs ih =>
      by_cases dotted : s = [dot]
      · simp only [List.map_cons, dotted, if_true]
        exact ih
      · simp only [List.map_cons, dotted, if_false, List.filter_cons, ne_eq, not_false_eq_true,
          decide_true, if_true]
        exact congrArg (_ :: ·) ih
  rw [Path.components_join dest isRelative undotted, Path.components_eq (relative name), lead,
    List.nil_append, Path.baseSteps_eq, filterMap_step? plain, names]
  rfl

/-- The first segment is a name, so that there is a way at all. -/
theorem below_ne_nil (head : (segments (relative name).bytes).head? ≠ some [dot]) : below name ≠ [] := by
  obtain ⟨s, rest, split⟩ := List.exists_cons_of_ne_nil (Path.segments_ne_nil (relative name).bytes)
  have undotted : s ≠ [dot] := by
    rintro rfl
    exact head (by rw [split, List.head?_cons])
  rw [below, split, List.filter_cons_of_pos (by simpa using undotted)]
  exact List.cons_ne_nil s _

end Name

/-! ### The order of paths -/

section Order

variable {α : Type} [Ord α] [Std.LawfulEqOrd α] {x y z : List α}

/-- A list comes after what it begins with. -/
theorem compare_lt_of_front (front : x <+: y) (other : x ≠ y) : compare x y = .lt := by
  induction x generalizing y with
  | nil =>
    rcases y with _ | ⟨b, y⟩
    · exact absurd rfl other
    · rfl
  | cons a x ih =>
    obtain ⟨rest, rfl⟩ := front
    rw [List.cons_append, List.compare_cons_cons, Std.compare_self, Ordering.then_eq_lt]
    refine .inr ⟨rfl, ih (List.prefix_append _ _) fun same => other ?_⟩
    rw [List.cons_append, ← same]

/-- What lies between a list and one that begins with it begins with it too. -/
theorem prefix_between [Std.TransOrd α] (front : x <+: z) (lower : compare x y = .lt)
    (upper : compare y z = .lt) : x <+: y := by
  induction x generalizing y z with
  | nil => exact List.nil_prefix
  | cons a x ih =>
    obtain ⟨rest, rfl⟩ := front
    rcases y with _ | ⟨b, y⟩
    · cases lower
    rw [List.compare_cons_cons, Ordering.then_eq_lt] at lower
    rw [List.cons_append, List.compare_cons_cons, Ordering.then_eq_lt] at upper
    rcases lower with less | ⟨same, lower⟩
    · rcases upper with less' | ⟨same', -⟩
      · exact absurd less' (Std.OrientedCmp.not_lt_of_lt less)
      · rw [Std.LawfulEqOrd.eq_of_compare same', Std.compare_self] at less
        cases less
    · obtain rfl := Std.LawfulEqOrd.eq_of_compare same
      rw [Std.compare_self] at upper
      have upper := (upper.resolve_left (by simp)).2
      exact (List.prefix_cons_inj a).2 (ih (List.prefix_append _ _) lower upper)

end Order

/-! ### One pass in order -/

section Nested

variable {opened rest : List (List Component)}

/-- Of the paths kept, those that a path begins with are left when the longest others were dropped. -/
theorem mem_dropWhile_iff (chain : opened.Pairwise fun x y => y <+: x) (cs x : List Component) :
    x ∈ opened.dropWhile (fun directory => !directory.isPrefixOf cs) ↔ x ∈ opened ∧ x <+: cs := by
  induction opened with
  | nil => simp
  | cons y opened ih =>
    obtain ⟨below, chain⟩ := List.pairwise_cons.1 chain
    rw [List.dropWhile_cons]
    by_cases h : y <+: cs
    · have kept : ¬(!y.isPrefixOf cs) = true := by simpa using h
      rw [if_neg kept, List.mem_cons]
      constructor
      · rintro (rfl | later)
        · exact ⟨.inl rfl, h⟩
        · exact ⟨.inr later, (below x later).trans h⟩
      · exact And.left
    · have dropped : (!y.isPrefixOf cs) = true := by
        rw [Bool.not_eq_true', ← Bool.not_eq_true, List.isPrefixOf_iff_prefix]
        exact h
      rw [if_pos dropped, ih chain, List.mem_cons]
      constructor
      · rintro ⟨later, front⟩
        exact ⟨.inr later, front⟩
      · rintro ⟨rfl | later, front⟩
        · exact absurd front h
        · exact ⟨later, front⟩

/-- Whether a path is the longest of those held that another one begins with. -/
structure IsNearest (held : List Component → Prop) (cs directory : List Component) : Prop where
  isHeld : held directory
  other : directory ≠ cs
  front : directory <+: cs
  longest : ∀ x, held x → x ≠ cs → x <+: cs → x <+: directory

/-- Only those held matter that the path begins with. -/
theorem IsNearest.congr {held held' : List Component → Prop} {cs directory : List Component}
    (same : ∀ x, x ≠ cs → x <+: cs → (held x ↔ held' x)) :
    IsNearest held cs directory ↔ IsNearest held' cs directory := by
  constructor
  · rintro ⟨h, other, front, longest⟩
    exact ⟨(same _ other front).1 h, other, front,
      fun x hx other front => longest x ((same x other front).2 hx) other front⟩
  · rintro ⟨h, other, front, longest⟩
    exact ⟨(same _ other front).2 h, other, front,
      fun x hx other front => longest x ((same x other front).1 hx) other front⟩

/-- Of paths of which each begins with those after it, the first is the longest. -/
theorem isNearest_iff_head? {above : List (List Component)} {cs directory : List Component}
    (chain : above.Pairwise fun x y => y <+: x) (fronts : ∀ x ∈ above, x ≠ cs ∧ x <+: cs) :
    IsNearest (· ∈ above) cs directory ↔ above.head? = some directory := by
  rcases above with _ | ⟨first, above⟩
  · simp only [List.head?_nil, reduceCtorEq, iff_false]
    rintro ⟨⟨⟩, -⟩
  · rw [List.head?_cons, Option.some_inj]
    obtain ⟨below, -⟩ := List.pairwise_cons.1 chain
    have longest : ∀ x ∈ first :: above, x <+: first := by
      intro x hx
      rcases List.mem_cons.1 hx with rfl | hx
      · exact List.prefix_refl _
      · exact below x hx
    constructor
    · intro nearest
      have firstFront := fronts first (.head _)
      have up := nearest.longest first (.head _) firstFront.1 firstFront.2
      exact up.eq_of_length_le (longest _ nearest.isHeld).length_le
    · rintro rfl
      exact ⟨.head _, (fronts first (.head _)).1, (fronts first (.head _)).2, fun x hx _ _ => longest x hx⟩

/-- What one pass finds are the paths to come that begin with another path, be it kept or to come, and
    the longest such. -/
theorem mem_nested_iff (cs directory : List Component) (chain : opened.Pairwise fun x y => y <+: x)
    (sorted : rest.Pairwise fun x y => compare x y = .lt)
    (before : ∀ x ∈ opened, ∀ y ∈ rest, compare x y = .lt) :
    (cs, directory) ∈ nested opened rest
      ↔ cs ∈ rest ∧ IsNearest (fun x => x ∈ opened ∨ x ∈ rest) cs directory := by
  induction rest generalizing opened with
  | nil => simp [nested]
  | cons c rest ih =>
    obtain ⟨after, sorted⟩ := List.pairwise_cons.1 sorted
    have member := mem_dropWhile_iff chain c
    have chainAbove := chain.sublist (List.dropWhile_sublist fun directory => !directory.isPrefixOf c)
    rw [nested]
    generalize opened.dropWhile (fun directory => !directory.isPrefixOf c) = above at member chainAbove ⊢
    have fronts : ∀ x ∈ above, x ≠ c ∧ x <+: c := by
      intro x hx
      obtain ⟨held, front⟩ := (member x).1 hx
      refine ⟨?_, front⟩
      rintro rfl
      have less := before x held x (.head _)
      rw [Std.compare_self] at less
      cases less
    -- Of the path at hand, what it begins with is kept.
    have here : IsNearest (· ∈ above) c directory
        ↔ IsNearest (fun x => x ∈ opened ∨ x ∈ c :: rest) c directory := by
      refine IsNearest.congr fun x other front => ⟨fun hx => .inl ((member x).1 hx).1, fun hx => ?_⟩
      refine (member x).2 ⟨hx.resolve_right fun hx => ?_, front⟩
      have hx := (List.mem_cons.1 hx).resolve_left other
      exact Std.OrientedCmp.not_lt_of_lt (after x hx) (compare_lt_of_front front other)
    -- Of a later one, what it begins with is kept or still to come.
    have later (hcs : cs ∈ rest) : IsNearest (fun x => x ∈ c :: above ∨ x ∈ rest) cs directory
        ↔ IsNearest (fun x => x ∈ opened ∨ x ∈ c :: rest) cs directory := by
      refine IsNearest.congr fun x other front => ⟨?_, ?_⟩
      · rintro (held | held)
        · rcases List.mem_cons.1 held with rfl | held
          · exact .inr (.head _)
          · exact .inl ((member x).1 held).1
        · exact .inr (.tail _ held)
      · rintro (held | held)
        · have between := prefix_between front (before x held c (.head _)) (after cs hcs)
          exact .inl (.tail _ ((member x).2 ⟨held, between⟩))
        · rcases List.mem_cons.1 held with rfl | held
          · exact .inl (.head _)
          · exact .inr held
    have others : (cs, directory) ∈ nested (c :: above) rest
        ↔ cs ∈ rest ∧ IsNearest (fun x => x ∈ c :: above ∨ x ∈ rest) cs directory := by
      refine ih (List.pairwise_cons.2 ⟨fun x hx => (fronts x hx).2, chainAbove⟩) sorted ?_
      intro x hx y hy
      rcases List.mem_cons.1 hx with rfl | hx
      · exact after y hy
      · exact before x ((member x).1 hx).1 y (.tail _ hy)
    refine Iff.trans (?_ : _ ↔ cs = c ∧ above.head? = some directory
        ∨ (cs, directory) ∈ nested (c :: above) rest) ?_
    · rcases above with _ | ⟨first, above⟩
      · simp
      · simp [eq_comm]
    rw [others, List.mem_cons]
    constructor
    · rintro (⟨rfl, first⟩ | ⟨hcs, nearest⟩)
      · exact ⟨.inl rfl, here.1 ((isNearest_iff_head? chainAbove fronts).2 first)⟩
      · exact ⟨.inr hcs, (later hcs).1 nearest⟩
    · rintro ⟨rfl | hcs, nearest⟩
      · exact .inl ⟨rfl, (isNearest_iff_head? chainAbove fronts).1 (here.2 nearest)⟩
      · exact .inr ⟨hcs, (later hcs).2 nearest⟩

/-- The paths found are among those of the pass. -/
theorem nested_sublist (opened rest : List (List Component)) :
    ((nested opened rest).map Prod.fst).Sublist rest := by
  induction rest generalizing opened with
  | nil => exact .slnil
  | cons c rest ih =>
    rw [nested]
    split
    · exact (ih _).cons c
    · exact (ih _).cons_cons c

end Nested

/-! ### Conflicts -/

variable {ps : List Path} {names : List String} {dest : Path}

theorem firstRepeated?_eq_none {seen : Std.TreeSet (List Component)} :
    firstRepeated? seen ps = none
      ↔ (∀ p ∈ ps, p.components ∉ seen) ∧ (ps.map Path.components).Nodup := by
  induction ps generalizing seen with
  | nil => simp [firstRepeated?]
  | cons p ps ih =>
    rw [firstRepeated?]
    by_cases h : seen.contains p.components
    · simp [h, ← Std.TreeSet.contains_iff_mem]
    · rw [if_neg h, ih, List.map_cons, List.nodup_cons]
      have new : p.components ∉ seen := h
      simp only [Std.TreeSet.mem_insert, Std.LawfulEqCmp.compare_eq_iff_eq, not_or, List.forall_mem_cons,
        List.mem_map, not_exists, not_and]
      constructor
      · rintro ⟨apart, distinct⟩
        exact ⟨⟨new, fun q hq => (apart q hq).2⟩, fun q hq same => (apart q hq).1 same.symm, distinct⟩
      · rintro ⟨⟨-, old⟩, apart, distinct⟩
        exact ⟨fun q hq => ⟨fun same => apart q hq same.symm, old q hq⟩, distinct⟩

/-- Going up from a path, the first of those held is the nearest. -/
theorem isNearest_of_find? {held : List Component → Prop} [DecidablePred held] {p file : Path}
    (filled : ∀ cs, held cs → cs ≠ [])
    (found : p.ancestors.find? (fun q => held q.components) = some file) :
    IsNearest held p.components file.components ∧ file = p.upTo file.components.length := by
  obtain ⟨isHeld, nearer, farther, split, passed⟩ := List.find?_eq_some_iff_append.1 found
  have chain := p.pairwise_ancestors
  obtain ⟨same, front, other⟩ := Path.mem_ancestors (List.mem_of_find?_eq_some found)
  refine ⟨⟨of_decide_eq_true isHeld, other, front, fun cs hcs other' front' => ?_⟩, same⟩
  have above := Path.upTo_mem_ancestors front' other' (filled cs hcs)
  have whole : (p.upTo cs.length).components = cs := by
    rw [Path.components_upTo, ← List.prefix_iff_eq_take.1 front']
  rw [split] at above chain
  rcases List.mem_append.1 above with near | far
  · have free := passed _ near
    rw [whole] at free
    simp [hcs] at free
  · rcases List.mem_cons.1 far with this | far
    · have equal : file.components = cs := this ▸ whole
      exact equal ▸ List.prefix_refl _
    · rw [← whole]
      exact (List.pairwise_cons.1 (List.pairwise_append.1 chain).2.1).1 _ far

/-- Going up from a path, none is met exactly if the path begins with none. -/
theorem find?_ancestors_eq_none_iff {held : List Component → Prop} [DecidablePred held] {p : Path}
    (filled : ∀ cs, held cs → cs ≠ []) :
    p.ancestors.find? (fun q => held q.components) = none
      ↔ ∀ cs, held cs → cs <+: p.components → cs = p.components := by
  rw [List.find?_eq_none]
  constructor
  · intro none cs hcs front
    by_contra other
    have free := none _ (Path.upTo_mem_ancestors front other (filled cs hcs))
    rw [Path.components_upTo, ← List.prefix_iff_eq_take.1 front] at free
    simp [hcs] at free
  · intro whole q hq isHeld
    obtain ⟨-, front, other⟩ := Path.mem_ancestors hq
    exact other (whole _ (of_decide_eq_true isHeld) front)

/-- The pass finds what going up from each path in turn finds first. -/
theorem firstNested?_eq (filled : ∀ p ∈ ps, p.components ≠ []) :
    firstNested? ps = ps.findSome? fun p =>
      (p.ancestors.find? fun q => q.components ∈ ps.map Path.components).map fun file => (file, p) := by
  have sorted : (Std.TreeSet.ofList (ps.map Path.components)).toList.Pairwise
      fun x y => compare x y = .lt := Std.TreeSet.ordered_toList
  have member (cs : List Component) :
      cs ∈ (Std.TreeSet.ofList (ps.map Path.components)).toList ↔ cs ∈ ps.map Path.components := by
    rw [Std.TreeSet.mem_toList, Std.TreeSet.mem_ofList, List.contains_iff_mem]
  have filled : ∀ cs, cs ∈ ps.map Path.components → cs ≠ [] := by
    intro cs hcs
    obtain ⟨p, hp, rfl⟩ := List.mem_map.1 hcs
    exact filled p hp
  have pass (cs directory : List Component) := mem_nested_iff cs directory .nil sorted (by simp)
  simp only [member, List.not_mem_nil, false_or] at pass
  have distinct : (nested [] (Std.TreeSet.ofList (ps.map Path.components)).toList).Pairwise
      fun x y => ¬compare x.1 y.1 = .eq := by
    have ascending := List.pairwise_map.1 (sorted.sublist (nested_sublist [] _))
    exact ascending.imp fun less same => by cases less.symm.trans same
  rw [firstNested?, ← List.head?_filterMap, ← List.head?_filterMap]
  refine congrArg List.head? (List.filterMap_congr fun p hp => ?_)
  rcases found : p.ancestors.find? (fun q => q.components ∈ ps.map Path.components) with _ | file
  · have alone := (find?_ancestors_eq_none_iff filled).1 found
    rw [found, Std.TreeMap.getElem?_ofList_of_contains_eq_false]
    · rfl
    · rw [← Bool.not_eq_true, List.contains_iff_mem, List.mem_map]
      rintro ⟨⟨cs, directory⟩, within, rfl⟩
      obtain ⟨-, isHeld, other, front, -⟩ := (pass _ _).1 within
      exact other (alone directory isHeld front)
  · obtain ⟨nearest, same⟩ := isNearest_of_find? filled found
    have within := (pass p.components file.components).2 ⟨List.mem_map_of_mem hp, nearest⟩
    rw [found, Std.TreeMap.getElem?_ofList_of_mem Std.compare_self distinct within, Option.map_some, ← same]
    rfl

theorem firstNested?_eq_none (filled : ∀ p ∈ ps, p.components ≠ []) : firstNested? ps = none
    ↔ ∀ p ∈ ps, ∀ q ∈ ps, q.components <+: p.components → q.components = p.components := by
  have filled' : ∀ cs, cs ∈ ps.map Path.components → cs ≠ [] := by
    intro cs hcs
    obtain ⟨p, hp, rfl⟩ := List.mem_map.1 hcs
    exact filled p hp
  rw [firstNested?_eq filled, List.findSome?_eq_none_iff]
  refine forall_congr' fun p => imp_congr_right fun hp => ?_
  rw [Option.map_eq_none_iff, find?_ancestors_eq_none_iff filled']
  simp only [List.forall_mem_map]

/-- Paths of names are not empty. -/
theorem components_ne_nil (given : names.mapM (path dest) = .ok ps) : ∀ p ∈ ps, p.components ≠ [] := by
  intro p hp
  have within : .ok p ∈ names.map (path dest) := by
    rw [mapM_eq_ok.1 given]
    exact List.mem_map_of_mem hp
  obtain ⟨name, -, found⟩ := List.mem_map.1 within
  rw [components_of_path found]
  simp [below_ne_nil (path_eq_ok.1 found).2.1]

/-- Names are refused for the first path that has another one among its ancestors, and for the nearest
    such, once all of them have paths and no two have the same. -/
theorem paths_eq : paths dest names = do
    let ps ← names.mapM (path dest)
    if let some p := firstRepeated? {} ps then throw (.sharedPath p)
    if let some (file, p) := ps.findSome? fun p =>
        (p.ancestors.find? fun q => q.components ∈ ps.map Path.components).map fun file => (file, p) then
      throw (.fileAndDirectory file p)
    return ps := by
  rw [paths]
  rcases given : names.mapM (path dest) with e | ps
  · rfl
  · simp only [bind, Except.bind, firstNested?_eq (components_ne_nil given)]
    rfl

/-- Names are accepted exactly if each of them has a path and no path begins with another one. -/
theorem paths_eq_ok : paths dest names = .ok ps ↔ names.mapM (path dest) = .ok ps
    ∧ (ps.map Path.components).Pairwise fun x y => ¬x <+: y ∧ ¬y <+: x := by
  have apart (given : names.mapM (path dest) = .ok ps) :
      (firstRepeated? {} ps = none ∧ firstNested? ps = none)
        ↔ (ps.map Path.components).Pairwise fun x y => ¬x <+: y ∧ ¬y <+: x := by
    rw [firstRepeated?_eq_none, firstNested?_eq_none (components_ne_nil given)]
    constructor
    · rintro ⟨⟨-, distinct⟩, unnested⟩
      refine distinct.imp_of_mem fun hx hy other => ?_
      obtain ⟨p, hp, rfl⟩ := List.mem_map.1 hx
      obtain ⟨q, hq, rfl⟩ := List.mem_map.1 hy
      exact ⟨fun front => other (unnested q hq p hp front),
        fun front => other (unnested p hp q hq front).symm⟩
    · intro apart
      refine ⟨⟨by simp, apart.imp ?_⟩, ?_⟩
      · rintro x y h rfl
        exact h.1 (List.prefix_refl x)
      · intro p hp q hq front
        by_contra other
        have symmetric : Std.Symm fun x y : List Component => ¬x <+: y ∧ ¬y <+: x :=
          ⟨fun _ _ h => h.symm⟩
        exact (apart.forall (List.mem_map_of_mem hq) (List.mem_map_of_mem hp) other).1 front
  rw [← and_congr_right_iff.2 apart, paths]
  rcases names.mapM (path dest) with e | qs
  · simp [bind, Except.bind]
  · have given : (Except.ok qs : Except Refusal (List Path)) = .ok ps ↔ qs = ps := by
      rw [Except.ok.injEq]
    rw [given]
    rcases repeated : firstRepeated? {} qs with _ | p
    · rcases nested : firstNested? qs with _ | ⟨file, p⟩
      · simp only [bind, Except.bind, pure, Except.pure, repeated, nested, Except.ok.injEq]
        constructor
        · rintro rfl
          exact ⟨rfl, repeated, nested⟩
        · exact And.left
      · simp only [bind, Except.bind, repeated, nested]
        constructor
        · rintro ⟨⟩
        · rintro ⟨rfl, -, unnested⟩
          rw [nested] at unnested
          cases unnested
    · simp only [bind, Except.bind, repeated]
      constructor
      · rintro ⟨⟩
      · rintro ⟨rfl, unrepeated, -⟩
        rw [repeated] at unrepeated
        cases unrepeated

end Extraction

end ResourceArchive
