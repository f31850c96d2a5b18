import Mathlib.Data.List.TakeWhile
import ResourceArchive.Proofs.Path

/-! Paths above a path, and paths seen from a directory. Going up from a path, parent by parent, one meets
    the path up to each of its components, the longest first. A path of names that is seen from a
    directory has the paths of its first names above it, and then the directory; and what is left of it
    without the directory is the path of the names again. -/

namespace ResourceArchive.Path

variable {p q : Path} {bs : Bytes} {segs front before after names : List Bytes} {d : List Component}
  {m n : Nat}

/-! ### Paths above a path -/

@[simp] theorem firstNames_zero : firstNames 0 segs = [] := by simp [firstNames]

@[simp] theorem firstNames_nil : firstNames n [] = [] := by cases n <;> rfl

theorem firstNames_front : firstNames n segs <+: segs := by
  induction segs generalizing n with
  | nil => simp
  | cons s segs ih =>
    cases n with
    | zero => simp
    | succ n =>
      rw [firstNames]
      exact (List.prefix_cons_inj s).2 ih

theorem firstNames_firstNames (le : m ≤ n) : firstNames m (firstNames n segs) = firstNames m segs := by
  induction segs generalizing m n with
  | nil => simp
  | cons s segs ih =>
    cases m with
    | zero => simp
    | succ m =>
      obtain ⟨k, rfl⟩ : ∃ k, n = k + 1 := ⟨n - 1, by omega⟩
      rw [firstNames, firstNames, firstNames, ih]
      split <;> omega

theorem firstNames_append_of_le (le : n ≤ (before.filterMap component?).length) :
    firstNames n (before ++ after) = firstNames n before := by
  induction before generalizing n with
  | nil =>
    obtain rfl : n = 0 := Nat.le_zero.1 le
    simp
  | cons s before ih =>
    cases n with
    | zero => simp
    | succ n =>
      rw [List.cons_append, firstNames, firstNames]
      rcases found : component? s with _ | c
      · rw [List.filterMap_cons_none found] at le
        simp only [Option.isSome_none, Bool.false_eq_true, if_false, ih le]
      · rw [List.filterMap_cons_some found, List.length_cons] at le
        simp only [Option.isSome_some, if_true, ih (Nat.le_of_succ_le_succ le)]

/-- The first names have the first components. -/
theorem filterMap_firstNames :
    (firstNames n segs).filterMap component? = (segs.filterMap component?).take n := by
  induction segs generalizing n with
  | nil => simp
  | cons s segs ih =>
    cases n with
    | zero => simp
    | succ n =>
      rw [firstNames]
      rcases found : component? s with _ | c
      · simp only [List.filterMap_cons_none found, Option.isSome_none, Bool.false_eq_true, if_false, ih]
      · simp only [List.filterMap_cons_some found, Option.isSome_some, if_true, ih, List.take_succ_cons]

theorem unsegment_front (h : front <+: segs) : unsegment front <+: unsegment segs := by
  obtain ⟨rest, rfl⟩ := h
  by_cases none : front = []
  · simp [none, unsegment]
  by_cases noMore : rest = []
  · simp [noMore]
  rw [unsegment_append none noMore]
  exact List.prefix_append _ _

/-- The segments of the first names are the first names, of which there may be none. -/
theorem segments_firstNames (n : Nat) (bs : Bytes) : n = 0
    ∨ segments (unsegment (firstNames n (segments bs))) = firstNames n (segments bs) := by
  cases n with
  | zero => exact .inl rfl
  | succ n =>
    obtain ⟨s, rest, split⟩ := List.exists_cons_of_ne_nil (segments_ne_nil bs)
    refine .inr (segments_unsegment (by simp [split, firstNames]) fun s hs => ?_)
    exact no_slash_of_mem_segments (firstNames_front.subset hs)

/-- A path whose segments another one begins with has no more in front of its names than the other. -/
theorem lead_eq_nil_of_front (unled : p.lead = []) (h : segments q.bytes <+: segments p.bytes) :
    q.lead = [] := by
  have bytes : q.bytes <+: p.bytes := by
    have := unsegment_front h
    rwa [unsegment_segments, unsegment_segments] at this
  have steps : q.baseSteps <+: p.baseSteps := h.filterMap step?
  obtain ⟨moreBytes, bytes⟩ := bytes
  obtain ⟨moreSteps, steps⟩ := steps
  rw [lead] at unled ⊢
  by_cases absolute : q.isAbsolute
  · rcases split : q.bytes with _ | ⟨b, rest⟩
    · simp [isAbsolute, split] at absolute
    · have absolute : p.isAbsolute := by simpa [isAbsolute, ← bytes, split] using absolute
      simp [absolute] at unled
  · rw [if_neg absolute]
    by_cases here : q.baseSteps.head? = some .here
    · have here : p.baseSteps.head? = some .here := by
        rw [← steps, List.head?_append, here]
        rfl
      rw [if_pos here] at unled
      split at unled <;> cases unled
    · rw [if_neg here]

theorem length_anchorComponents (a : Bytes) : (anchorComponents a).length ≤ 1 := by
  rw [anchorComponents]
  split
  · simp
  · split <;> simp

theorem anchor_of_lead (unled : p.lead = []) : p.anchor = ([], p.bytes) := by
  rcases p.anchor_cases with ⟨_, _, lead, -⟩ | ⟨_, _, _, lead, -⟩ | ⟨anchored, -⟩
  · cases lead.symm.trans unled
  · cases lead.symm.trans unled
  · exact anchored

theorem upTo_eq (some : n ≠ 0) : p.upTo n = ⟨p.anchor.1
    ++ unsegment (firstNames (n - (anchorComponents p.anchor.1).length) (segments p.anchor.2))⟩ := by
  rw [upTo]
  exact if_neg some

/-- A path up to one of its components has the anchor of the path. -/
theorem anchor_upTo (some : n ≠ 0) : (p.upTo n).anchor = (p.anchor.1,
    unsegment (firstNames (n - (anchorComponents p.anchor.1).length) (segments p.anchor.2))) := by
  rw [upTo]
  rcases p.anchor_cases with ⟨body, anchored, lead, split⟩ | ⟨body, segs, anchored, lead, split, whole⟩
    | ⟨anchored, lead⟩
  · rw [anchored]
    simp only [if_neg some]
    rfl
  · rw [anchored]
    simp only [if_neg some, split]
    generalize n - (anchorComponents [dot]).length = k
    rcases k with _ | k
    · rfl
    · rw [firstNames]
      rcases firstNames (if (component? []).isSome then k else k + 1) segs with _ | ⟨s, rest⟩
      · rfl
      · rw [unsegment_cons [] (List.cons_ne_nil s rest)]
        rfl
  · rw [anchored]
    simp only [if_neg some, List.nil_append]
    refine anchor_of_lead (lead_eq_nil_of_front lead ?_)
    show segments (unsegment (firstNames n (segments p.bytes))) <+: segments p.bytes
    rw [(segments_firstNames n p.bytes).resolve_left some]
    exact firstNames_front

theorem components_eq_anchor (p : Path) : p.components
    = anchorComponents p.anchor.1 ++ (segments p.anchor.2).filterMap component? := rfl

/-- A path up to its `n`-th component has the first `n` components. -/
theorem components_upTo : (p.upTo n).components = p.components.take n := by
  by_cases none : n = 0
  · subst none
    rfl
  · have short := length_anchorComponents p.anchor.1
    rw [components, components, anchor_upTo none]
    simp only
    rw [List.take_append, List.take_of_length_le (by omega)]
    generalize n - (anchorComponents p.anchor.1).length = k
    rcases segments_firstNames k p.anchor.2 with none | kept
    · subst none
      simp [unsegment, segments, component?]
    · rw [kept, filterMap_firstNames]

theorem upTo_upTo (le : m ≤ n) : (p.upTo n).upTo m = p.upTo m := by
  by_cases none : m = 0
  · subst none
    rfl
  · rw [upTo, anchor_upTo (by omega), upTo]
    simp only [if_neg none]
    have short := length_anchorComponents p.anchor.1
    generalize hk : n - (anchorComponents p.anchor.1).length = k
    rcases segments_firstNames k p.anchor.2 with none | kept
    · have none' : m - (anchorComponents p.anchor.1).length = 0 := by omega
      rw [none', firstNames_zero, firstNames_zero]
    · rw [kept, firstNames_firstNames (by omega)]

theorem root_not_mem_filterMap : .root ∉ segs.filterMap component? := by
  rw [List.mem_filterMap]
  rintro ⟨s, -, found⟩
  revert found
  fun_cases component? s <;> simp

/-- The parent of a path is the path without its last component. -/
theorem parent?_eq (p : Path) : p.parent? = if p.components = [] ∨ p.components = [.root] then none
    else some (p.upTo (p.components.length - 1)) := by
  have anchors : p.anchor.1 = [slash] ∨ p.anchor.1 = [dot] ∨ p.anchor.1 = [] := by
    rcases p.anchor_cases with ⟨_, anchored, -⟩ | ⟨_, _, anchored, -⟩ | ⟨anchored, -⟩ <;> simp [anchored]
  rw [parent?, components, upTo]
  generalize p.anchor = anchor at anchors ⊢
  obtain ⟨a, body⟩ := anchor
  simp only at anchors ⊢
  rw [← List.length_filterMap_eq_countP]
  rcases names : (segments body).filterMap component? with _ | ⟨c, cs⟩
  · rcases anchors with rfl | rfl | rfl <;> simp [anchorComponents, slash, dot]
  · rcases anchors with rfl | rfl | rfl
    · simp [anchorComponents]
    · simp [anchorComponents, slash, dot]
    · have below : c ≠ .root := by
        rintro rfl
        have member : Component.root ∈ (segments body).filterMap component? := by simp [names]
        exact root_not_mem_filterMap member
      rcases cs with _ | ⟨c', cs⟩ <;> simp [anchorComponents, below, unsegment]

theorem components_of_parent? (h : p.parent? = some q) : q.components = p.components.dropLast
    ∧ q = p.upTo q.components.length ∧ p.components ≠ [] ∧ p.components ≠ [.root] := by
  rw [parent?_eq] at h
  split at h
  · cases h
  · next top =>
    cases h
    have length : (p.upTo (p.components.length - 1)).components.length = p.components.length - 1 := by
      rw [components_upTo, List.length_take]
      omega
    rw [length, components_upTo, List.dropLast_eq_take]
    exact ⟨rfl, rfl, not_or.1 top⟩

/-- The paths above a path, the nearest first. -/
def ancestors (p : Path) : List Path :=
  match _above : p.parent? with
  | none => []
  | some q => q :: q.ancestors
termination_by p.components.length
decreasing_by
  obtain ⟨names, -, some, -⟩ := components_of_parent? _above
  have := List.length_pos_iff.2 some
  rw [names, List.length_dropLast]
  omega

theorem ancestors_of_none (top : p.parent? = none) : p.ancestors = [] := by
  rw [ancestors]
  split
  · rfl
  · next q' above => cases above.symm.trans top

theorem ancestors_of_parent? (above : p.parent? = some q) : p.ancestors = q :: q.ancestors := by
  rw [ancestors]
  split
  · next top => cases top.symm.trans above
  · next q' above' =>
    cases above'.symm.trans above
    rfl

/-- A path above another one is the beginning of that. -/
theorem mem_ancestors (h : q ∈ p.ancestors) : q = p.upTo q.components.length
    ∧ q.components <+: p.components ∧ q.components ≠ p.components := by
  induction p using ancestors.induct with
  | case1 p top =>
    rw [ancestors_of_none top] at h
    cases h
  | case2 p parent above ih =>
    obtain ⟨names, same, some, -⟩ := components_of_parent? above
    have front : parent.components <+: p.components := names ▸ List.dropLast_prefix _
    have shorter : parent.components.length < p.components.length := by
      have := List.length_pos_iff.2 some
      rw [names, List.length_dropLast]
      omega
    rw [ancestors_of_parent? above] at h
    rcases List.mem_cons.1 h with rfl | h
    · exact ⟨same, front, fun all => by rw [all] at shorter; omega⟩
    · obtain ⟨same', front', other⟩ := ih h
      have le := front'.length_le
      refine ⟨?_, front'.trans front, fun all => by rw [all] at le; omega⟩
      rw [same, upTo_upTo le] at same'
      exact same'

/-- What a path begins with is above it, but for nothing at all. -/
theorem upTo_mem_ancestors (front : d <+: p.components) (other : d ≠ p.components) (some : d ≠ []) :
    p.upTo d.length ∈ p.ancestors := by
  induction p using ancestors.induct with
  | case1 p top =>
    rw [parent?_eq] at top
    split at top
    · next h =>
      rcases h with none | root
      · exact absurd (List.prefix_nil.1 (none ▸ front)) some
      · rcases List.prefix_cons_iff.1 (root ▸ front) with none | ⟨rest, rfl, noMore⟩
        · exact absurd none some
        · rw [List.prefix_nil.1 noMore] at other
          exact absurd root.symm other
    · cases top
  | case2 p parent above ih =>
    obtain ⟨names, same, -⟩ := components_of_parent? above
    rw [ancestors_of_parent? above]
    have front' : d <+: parent.components := by
      rw [names, List.dropLast_eq_take, List.prefix_take_iff]
      refine ⟨front, ?_⟩
      have := front.length_le
      have : d.length ≠ p.components.length := fun all => other (front.eq_of_length all)
      omega
    by_cases last : d = parent.components
    · rw [last, ← same]
      exact .head _
    · have whole : parent.upTo d.length = p.upTo d.length :=
        (congrArg (·.upTo d.length) same).trans (upTo_upTo front'.length_le)
      exact .tail _ (whole ▸ ih front' last)

/-- The paths above a path come nearest first. -/
theorem pairwise_ancestors : p.ancestors.Pairwise fun q r => r.components <+: q.components := by
  induction p using ancestors.induct with
  | case1 p top =>
    rw [ancestors_of_none top]
    exact .nil
  | case2 p parent above ih =>
    rw [ancestors_of_parent? above]
    exact .cons (fun q hq => (mem_ancestors hq).2.1) ih

/-! ### Paths seen from a directory -/

theorem anchor_slash (bs : Bytes) : anchor ⟨slash :: bs⟩ = ([slash], bs) := rfl

theorem anchor_dot_slash (bs : Bytes) : anchor ⟨dot :: slash :: bs⟩ = ([dot], slash :: bs) := rfl

/-- Nothing of a path is lost when its anchor is broken off. -/
theorem anchor_append (p : Path) : p.anchor.1 ++ p.anchor.2 = p.bytes := by
  obtain ⟨bs⟩ := p
  rw [anchor]
  split
  · next absolute =>
    rcases bs with _ | ⟨b, bs⟩
    · cases absolute
    · have first : b = slash := by simpa [isAbsolute] using absolute
      rw [first]
      rfl
  · split
    · next dotted =>
      rcases dotted with whole | front
      · rw [whole]
        rfl
      · obtain ⟨more, rfl⟩ := List.isPrefixOf_iff_prefix.1 front
        rfl
    · rfl

/-- The bytes of a path seen from a directory. -/
theorem join_eq (some : p.bytes ≠ []) (relative : q.isAbsolute = false) : p.join q
    = ⟨p.bytes ++ if p.bytes.getLast? = Option.some slash then q.bytes else slash :: q.bytes⟩ := by
  rw [join, relative, if_neg Bool.false_ne_true]
  split
  · next closed => rw [if_pos (closed.resolve_left some)]
  · next closed => rw [if_neg (not_or.1 closed).2]

/-- What follows the anchor in a path seen from a directory. -/
theorem anchor_join (some : p.bytes ≠ []) (relative : q.isAbsolute = false) : (p.join q).anchor
    = (p.anchor.1, p.anchor.2
        ++ if p.bytes.getLast? = Option.some slash then q.bytes else slash :: q.bytes) := by
  have lead := lead_join some relative
  rw [join_eq some relative] at lead ⊢
  obtain ⟨bs⟩ := p
  rcases anchor_cases ⟨bs⟩ with ⟨body, anchored, lead', split⟩ | ⟨body, segs, anchored, lead', split, whole⟩
    | ⟨anchored, lead'⟩
  · have bytes : [slash] ++ body = bs := by simpa [anchored] using anchor_append ⟨bs⟩
    rw [anchored, ← bytes]
    exact anchor_slash _
  · have bytes : [dot] ++ body = bs := by simpa [anchored] using anchor_append ⟨bs⟩
    rw [anchored, ← bytes]
    rcases body with _ | ⟨b, more⟩
    · rfl
    · obtain rfl : b = slash := by
        by_contra other
        obtain ⟨s, rest, h⟩ := List.exists_cons_of_ne_nil (segments_ne_nil more)
        rw [segments_cons other h] at split
        cases split
      exact anchor_dot_slash _
  · rw [anchored, anchor_of_lead (lead.trans lead')]

/-- The segments after the anchor of a directory, but for an empty one at their end. -/
def stem (p : Path) : List Bytes :=
  if p.bytes.getLast? = some slash then (segments p.anchor.2).dropLast else segments p.anchor.2

theorem stem_of_closed (closed : p.bytes.getLast? = some slash) : p.anchor.2 = [] ∧ p.stem = []
    ∨ ∃ front, p.anchor.2 = front ++ [slash] ∧ p.stem = segments front := by
  rw [stem, if_pos closed]
  rcases body : p.anchor.2 with _ | ⟨b, bs⟩
  · exact .inl ⟨rfl, rfl⟩
  · have ends : (b :: bs).getLast? = some slash := by
      rwa [← anchor_append, body, List.getLast?_append_of_ne_nil _ (List.cons_ne_nil b bs)] at closed
    obtain ⟨front, split⟩ := List.getLast?_eq_some_iff.1 ends
    have segs : segments (front ++ [slash]) = segments front ++ [[]] := segments_append_slash front []
    exact .inr ⟨front, split, by rw [split, segs, List.dropLast_concat]⟩

theorem segments_anchor (p : Path) :
    segments p.anchor.2 = p.stem ∨ segments p.anchor.2 = p.stem ++ [[]] := by
  by_cases closed : p.bytes.getLast? = some slash
  · rcases stem_of_closed closed with ⟨body, stem⟩ | ⟨front, body, stem⟩
    · rw [body, stem]
      exact .inr rfl
    · rw [body, stem]
      exact .inr (segments_append_slash front [])
  · rw [stem, if_neg closed]
    exact .inl rfl

theorem filterMap_stem (p : Path) :
    p.stem.filterMap component? = (segments p.anchor.2).filterMap component? := by
  rcases p.segments_anchor with same | same <;> simp [same, component?]

theorem length_stem (p : Path) : (p.stem.filterMap component?).length
    = p.components.length - (anchorComponents p.anchor.1).length := by
  rw [filterMap_stem, components_eq_anchor]
  simp

/-- The segments of a path seen from a directory are those of the directory and its own. -/
theorem segments_join (some : p.bytes ≠ []) (relative : q.isAbsolute = false) :
    segments (p.join q).anchor.2 = p.stem ++ segments q.bytes := by
  rw [anchor_join some relative]
  by_cases closed : p.bytes.getLast? = Option.some slash
  · rw [if_pos closed]
    rcases stem_of_closed closed with ⟨body, stem⟩ | ⟨front, body, stem⟩
    · rw [body, stem]
      rfl
    · rw [body, stem, List.append_assoc, List.singleton_append, segments_append_slash]
  · rw [if_neg closed, stem, if_neg closed]
    exact segments_append_slash _ _

theorem components_join_ofNames (p : Path) (named : ∀ n ∈ names, IsFileName n) :
    (p.join (ofNames names)).components = p.components ++ names.map .name := by
  have undotted : (ofNames names).baseSteps.head? ≠ some .here := by
    rw [baseSteps_ofNames named]
    cases names <;> simp
  rw [components_join p (isAbsolute_ofNames named) undotted, components_ofNames named]

theorem isAbsolute_name {n : Bytes} (named : IsFileName n) : isAbsolute ⟨n⟩ = false := by
  have names : ∀ m ∈ [n], IsFileName m := by simpa using named
  exact isAbsolute_ofNames names

theorem components_join_name (p : Path) {n : Bytes} (named : IsFileName n) :
    (p.join ⟨n⟩).components = p.components ++ [.name n] := by
  have names : ∀ m ∈ [n], IsFileName m := by simpa using named
  exact components_join_ofNames p names

/-- Seen from a path of names, a name is at the end of a longer one. -/
theorem join_concat (p : Path) {n : Bytes} (named : ∀ m ∈ names ++ [n], IsFileName m) (filled : names ≠ []) :
    (p.join (ofNames names)).join ⟨n⟩ = p.join (ofNames (names ++ [n])) := by
  have front : ∀ n ∈ names, IsFileName n := fun n hn => named n (List.mem_append_left _ hn)
  have isRelative := isAbsolute_ofNames front
  have some := ofNames_ne_nil front filled
  have unclosed : (p.join (ofNames names)).bytes.getLast? ≠ Option.some slash := by
    simpa [endsInSlash] using endsInSlash_join_ofNames front p filled
  have bytes : (ofNames (names ++ [n])).bytes = (ofNames names).bytes ++ slash :: n :=
    unsegment_append filled (List.cons_ne_nil n [])
  have isRelative' := isAbsolute_name (named n (by simp))
  have some' : (p.join (ofNames names)).bytes ≠ [] := by
    rw [join, isRelative, if_neg Bool.false_ne_true]
    split <;> simp [some]
  rw [join_eq some' isRelative', if_neg unclosed]
  rw [join, join, isRelative, isAbsolute_ofNames named, if_neg Bool.false_ne_true, if_neg Bool.false_ne_true,
    bytes]
  split <;> simp

/-- The path that a walk from a path gives to what is at the end of a way. -/
def along (p : Path) (way : List Bytes) : Path := way.foldl (fun p name => p.join ⟨name⟩) p

theorem along_concat (p : Path) (way : List Bytes) (n : Bytes) :
    p.along (way ++ [n]) = (p.along way).join ⟨n⟩ := List.foldl_append ..

theorem front_along (p : Path) {way : List Bytes} (named : ∀ n ∈ way, IsFileName n) :
    p.bytes <+: (p.along way).bytes := by
  induction way generalizing p with
  | nil => exact List.prefix_refl _
  | cons n way ih =>
    have isRelative := isAbsolute_name (named n (.head _))
    exact (front_join p isRelative).trans (ih _ fun m hm => named m (.tail _ hm))

theorem along_join (p : Path) {way : List Bytes} (named : ∀ n ∈ names ++ way, IsFileName n)
    (filled : names ≠ []) : (p.join (ofNames names)).along way = p.join (ofNames (names ++ way)) := by
  induction way generalizing names with
  | nil =>
    rw [List.append_nil]
    rfl
  | cons n way ih =>
    have named' : ∀ m ∈ (names ++ [n]) ++ way, IsFileName m := by simpa using named
    have onward := ih named' (by simp)
    rw [List.append_assoc, List.singleton_append] at onward
    rw [← onward, ← join_concat p (fun m hm => named' m (List.mem_append_left _ hm)) filled]
    rfl

/-- A walk gives to what is at the end of a way the path of the way, seen from where it began. -/
theorem along_eq (p : Path) {way : List Bytes} (named : ∀ n ∈ way, IsFileName n) (filled : way ≠ []) :
    p.along way = p.join (ofNames way) := by
  obtain ⟨n, way, rfl⟩ := List.exists_cons_of_ne_nil filled
  show (p.join (ofNames [n])).along way = p.join (ofNames ([n] ++ way))
  exact along_join p named (List.cons_ne_nil n [])

/-! ### Above what is seen from a directory -/

/-- Above a path that is seen from a directory is what is above the directory. -/
theorem upTo_join (some : p.bytes ≠ []) (relative : q.isAbsolute = false) (le : n ≤ p.components.length) :
    (p.join q).upTo n = p.upTo n := by
  by_cases none : n = 0
  · subst none
    rfl
  · have anchor : (p.join q).anchor.1 = p.anchor.1 := by rw [anchor_join some relative]
    have within : n - (anchorComponents p.anchor.1).length ≤ (p.stem.filterMap component?).length := by
      rw [length_stem]
      omega
    rw [upTo_eq none, upTo_eq none, segments_join some relative, anchor, firstNames_append_of_le within]
    rcases p.segments_anchor with same | same
    · rw [same]
    · rw [same, firstNames_append_of_le within]

/-- A path without the slashes and dots at its end. -/
def bare (p : Path) : Path := p.upTo p.components.length

/-- Above a name that is seen from a directory is the directory. -/
theorem parent?_join_name {n : Bytes} (some : p.bytes ≠ []) (named : IsFileName n) :
    (p.join ⟨n⟩).parent? = Option.some p.bare := by
  have below : ¬(p.components ++ [.name n] = [] ∨ p.components ++ [.name n] = [.root]) := by
    rintro (none | root)
    · simp at none
    · have last := congrArg List.getLast? root
      simp at last
  rw [parent?_eq, components_join_name p named, if_neg below, List.length_append, List.length_singleton,
    Nat.add_sub_cancel, bare, upTo_join some (isAbsolute_name named) (Nat.le_refl _)]

theorem along_ne_nil (some : p.bytes ≠ []) (named : ∀ n ∈ names, IsFileName n) :
    (p.along names).bytes ≠ [] :=
  fun none => some (List.prefix_nil.1 (none ▸ front_along p named))

/-- Above the end of a way is the end of the way before its last name. -/
theorem parent?_along {n : Bytes} (some : p.bytes ≠ []) (named : ∀ m ∈ names ++ [n], IsFileName m) :
    (p.along (names ++ [n])).parent? = Option.some (p.along names).bare := by
  have front : ∀ m ∈ names, IsFileName m := fun m hm => named m (List.mem_append_left _ hm)
  rw [along_concat, parent?_join_name (along_ne_nil some front) (named n (by simp))]

end ResourceArchive.Path
