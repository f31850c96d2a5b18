import ResourceArchive.Proofs.Conflicts

/-! Where resources are extracted to. The path of a resource is that of the destination and, below it, at
    least one name, whatever the destination is and however the resource is called: names that would lead
    anywhere else have no path. So whether several names can be extracted together is a matter of the ways
    below the destination alone, and neither the destination nor the order of the names has a say in it. -/

namespace ResourceArchive

namespace Extraction

open ResourceArchive.Path (segments slash dot)

variable {dest p q : Path} {name : String} {names : List String} {ps : List Path} {n : Bytes}

/-! ### One name -/

/-- A name that has a path below any destination. -/
def HasPath (name : String) : Prop :=
  IsPlain (segments (relative name).bytes) ∧ (segments (relative name).bytes).head? ≠ some [dot]

theorem exists_path_iff : (∃ p, path dest name = .ok p) ↔ HasPath name := by
  constructor
  · rintro ⟨p, found⟩
    obtain ⟨plain, head, -⟩ := path_eq_ok.1 found
    exact ⟨plain, head⟩
  · rintro ⟨plain, head⟩
    exact ⟨_, path_eq_ok.2 ⟨plain, head, rfl⟩⟩

theorem head?_relative (name : String) : (relative name).bytes.head? ≠ some slash := by
  intro first
  have other := List.head?_dropWhile_not (· == slash) (utf8 name)
  rw [show ((utf8 name).dropWhile (· == slash)).head? = some slash from first] at other
  cases other

/-- Which names have a path is told by the slashes and dots of what follows the leading slashes. -/
theorem hasPath_iff : HasPath name ↔ (relative name).bytes ≠ []
    ∧ (relative name).bytes.getLast? ≠ some slash ∧ ¬[slash, slash] <:+: (relative name).bytes
    ∧ [dot, dot] ∉ segments (relative name).bytes
    ∧ (segments (relative name).bytes).head? ≠ some [dot] := by
  have plain : IsPlain (segments (relative name).bytes)
      ↔ [] ∉ segments (relative name).bytes ∧ [dot, dot] ∉ segments (relative name).bytes := by
    constructor
    · intro plain
      exact ⟨not_mem_of_isPlain plain, fun dots => (plain _ dots).2 rfl⟩
    · rintro ⟨full, undotted⟩ s hs
      exact ⟨fun none => full (none ▸ hs), fun dots => undotted (dots ▸ hs)⟩
  have full : [] ∉ segments (relative name).bytes ↔ (relative name).bytes ≠ []
      ∧ (relative name).bytes.getLast? ≠ some slash
      ∧ ¬[slash, slash] <:+: (relative name).bytes := by
    rw [Path.nil_mem_segments_iff, not_or, not_or, not_or]
    exact ⟨fun h => ⟨h.1, h.2.2⟩, fun h => ⟨h.1, head?_relative name, h.2⟩⟩
  rw [HasPath, plain, full, and_assoc, and_assoc, and_assoc]

/-- On the way there are names only. -/
theorem HasPath.isName_of_mem_below (h : HasPath name) (hn : n ∈ below name) :
    n ≠ [] ∧ n ≠ [dot] ∧ n ≠ [dot, dot] ∧ slash ∉ n := by
  obtain ⟨hs, undotted⟩ := List.mem_filter.1 hn
  exact ⟨(h.1 n hs).1, of_decide_eq_true undotted, (h.1 n hs).2, Path.no_slash_of_mem_segments hs⟩

/-- No resource is extracted outside the destination. A name has a path if what follows its leading slashes
    is not empty, has no empty and no double-dotted segment and does not begin with a dot segment; the
    path then goes through the destination, whatever that is, and on down by the segments that are
    no dots, of which there is at least one. -/
theorem path_confined (dest : Path) (name : String) :
    ((∃ p, path dest name = .ok p) ↔ (relative name).bytes ≠ []
      ∧ (relative name).bytes.getLast? ≠ some slash ∧ ¬[slash, slash] <:+: (relative name).bytes
      ∧ [dot, dot] ∉ segments (relative name).bytes
      ∧ (segments (relative name).bytes).head? ≠ some [dot])
    ∧ ∀ p, path dest name = .ok p →
      p.components
          = dest.components ++ ((segments (relative name).bytes).filter (· ≠ [dot])).map .name
        ∧ (segments (relative name).bytes).filter (· ≠ [dot]) ≠ []
        ∧ ∀ n ∈ (segments (relative name).bytes).filter (· ≠ [dot]),
          n ≠ [] ∧ n ≠ [dot] ∧ n ≠ [dot, dot] ∧ slash ∉ n := by
  refine ⟨exists_path_iff.trans hasPath_iff, fun p found => ?_⟩
  have h : HasPath name := exists_path_iff.1 ⟨p, found⟩
  exact ⟨components_of_path found, below_ne_nil h.2, fun n hn => h.isName_of_mem_below hn⟩

/-- A destination that leads upwards itself, and a name with slashes before it and a dot within. -/
theorem path_confined_upwards : ∃ p, path (.ofString "../out/") "//m/./..x" = .ok p
    ∧ p.components = [.up, .name (utf8 "out"), .name (utf8 "m"), .name (utf8 "..x")] := by
  obtain ⟨told, below⟩ := path_confined (.ofString "../out/") "//m/./..x"
  obtain ⟨p, found⟩ := told.2 (by decide +kernel)
  exact ⟨p, found, (below p found).1⟩

/-! ### Several names -/

/-- No list of several begins with another one exactly if it is so at any two places. -/
theorem pairwise_not_prefix_iff {α : Type} {ways : List (List α)} :
    (ways.Pairwise fun x y => ¬x <+: y ∧ ¬y <+: x)
      ↔ ∀ i j (hi : i < ways.length) (hj : j < ways.length), i ≠ j → ¬ways[i] <+: ways[j] := by
  rw [List.pairwise_iff_getElem]
  constructor
  · intro apart i j hi hj other
    rcases Nat.lt_or_gt_of_ne other with before | after
    · exact (apart i j hi hj before).1
    · exact (apart j i hj hi after).2
  · intro apart i j hi hj before
    exact ⟨apart i j hi hj (Nat.ne_of_lt before), apart j i hj hi (Nat.ne_of_gt before)⟩

/-- Names that can be extracted together: each has a path, and no way below a destination begins with
    another. -/
structure Compatible (names : List String) : Prop where
  each : ∀ name ∈ names, HasPath name
  apart : (names.map below).Pairwise fun x y => ¬x <+: y ∧ ¬y <+: x

theorem Compatible.perm {names' : List String} (same : names.Perm names') (h : Compatible names) :
    Compatible names' where
  each name hname := h.each name (same.mem_iff.2 hname)
  apart := ((same.map below).pairwise_iff And.symm).1 h.apart

/-- One path below a destination begins with another as the way to it does. -/
theorem prefix_below_iff (dest : Path) (x y : List Bytes) :
    dest.components ++ x.map .name <+: dest.components ++ y.map .name ↔ x <+: y := by
  have injective : Function.Injective Component.name := fun _ _ h => Component.name.inj h
  rw [List.prefix_append_right_inj, List.prefix_map_iff_of_injective injective]

theorem map_components (given : names.map (path dest) = ps.map .ok) :
    ps.map Path.components = (names.map below).map fun way => dest.components ++ way.map .name := by
  induction names generalizing ps with
  | nil =>
    rw [List.map_nil, eq_comm, List.map_eq_nil_iff] at given
    rw [given]
    rfl
  | cons name names ih =>
    obtain ⟨p, ps', rfl, found, given⟩ := List.map_eq_cons_iff.1 given.symm
    rw [List.map_cons, List.map_cons, List.map_cons, ih given.symm, components_of_path found.symm]

/-- The paths below a destination are apart as the ways are. -/
theorem pairwise_components_iff (given : names.map (path dest) = ps.map .ok) :
    ((ps.map Path.components).Pairwise fun x y => ¬x <+: y ∧ ¬y <+: x)
      ↔ (names.map below).Pairwise fun x y => ¬x <+: y ∧ ¬y <+: x := by
  rw [map_components given, List.pairwise_map]
  simp only [prefix_below_iff]

theorem exists_paths_iff : (∃ ps, paths dest names = .ok ps) ↔ Compatible names := by
  constructor
  · rintro ⟨ps, accepted⟩
    obtain ⟨each, apart⟩ := paths_eq_ok.1 accepted
    rw [mapM_eq_ok] at each
    refine ⟨fun name hname => ?_, (pairwise_components_iff each).1 apart⟩
    have found : path dest name ∈ ps.map .ok := each ▸ List.mem_map_of_mem hname
    obtain ⟨p, -, found⟩ := List.mem_map.1 found
    exact exists_path_iff.1 ⟨p, found.symm⟩
  · rintro ⟨each, apart⟩
    have given : names.map (path dest) = (names.map fun name => dest.join (relative name)).map .ok := by
      rw [List.map_map]
      refine List.map_congr_left fun name hname => ?_
      obtain ⟨plain, head⟩ := each name hname
      exact path_eq_ok.2 ⟨plain, head, rfl⟩
    exact ⟨_, paths_eq_ok.2 ⟨mapM_eq_ok.2 given, (pairwise_components_iff given).2 apart⟩⟩

/-- Names are accepted together exactly if each has a path and no path begins with that of a name at
    another place. Each name then has its own path; and they would be accepted for any other
    destination, and in any other order. -/
theorem paths_accepted (dest : Path) (names : List String) :
    ((∃ ps, paths dest names = .ok ps) ↔ (∀ name ∈ names, ∃ p, path dest name = .ok p)
      ∧ ∀ i j (hi : i < names.length) (hj : j < names.length), i ≠ j →
        ∀ p q, path dest names[i] = .ok p → path dest names[j] = .ok q →
          ¬p.components <+: q.components)
    ∧ (∀ ps, paths dest names = .ok ps → names.map (path dest) = ps.map .ok)
    ∧ ∀ dest' names', names.Perm names' →
      ((∃ ps, paths dest names = .ok ps) ↔ ∃ ps, paths dest' names' = .ok ps) := by
  refine ⟨?_, fun ps accepted => mapM_eq_ok.1 (paths_eq_ok.1 accepted).1, fun dest' names' same => ?_⟩
  · rw [exists_paths_iff]
    constructor
    · rintro ⟨each, apart⟩
      refine ⟨fun name hname => exists_path_iff.2 (each name hname), ?_⟩
      intro i j hi hj other p q hp hq
      rw [pairwise_not_prefix_iff] at apart
      have front := apart i j (by simpa using hi) (by simpa using hj) other
      rw [List.getElem_map, List.getElem_map] at front
      rwa [components_of_path hp, components_of_path hq, prefix_below_iff]
    · rintro ⟨each, apart⟩
      refine ⟨fun name hname => exists_path_iff.1 (each name hname), pairwise_not_prefix_iff.2 ?_⟩
      intro i j hi hj other
      rw [List.length_map] at hi hj
      obtain ⟨p, hp⟩ := each _ (List.getElem_mem hi)
      obtain ⟨q, hq⟩ := each _ (List.getElem_mem hj)
      have front := apart i j hi hj other p q hp hq
      rw [components_of_path hp, components_of_path hq, prefix_below_iff] at front
      rwa [List.getElem_map, List.getElem_map]
  · rw [exists_paths_iff, exists_paths_iff]
    exact ⟨.perm same, .perm same.symm⟩

/-- Names in two spellings: some can be extracted together, wherever and in whatever order, and some cannot,
    since one needs a directory where another is a file. -/
theorem paths_accepted_spellings :
    (∃ ps, paths (.ofString "/../x/") ["top", "a/./b", "/m/a"] = .ok ps)
    ∧ ¬∃ ps, paths (.ofString "out") ["/m/a", "m/./a/b"] = .ok ps := by
  constructor
  · obtain ⟨-, -, same⟩ := paths_accepted (.ofString "out") ["/m/a", "a/./b", "top"]
    refine (same _ _ ?_).1 ⟨[.ofString "out/m/a", .ofString "out/a/./b", .ofString "out/top"], by
      decide +kernel⟩
    decide
  · intro accepted
    obtain ⟨-, apart⟩ := (paths_accepted _ _).1.1 accepted
    refine apart 0 1 (by decide) (by decide) (by decide) (.ofString "out/m/a") (.ofString "out/m/./a/b")
      ?_ ?_ ?_
    · decide +kernel
    · decide +kernel
    · decide +kernel

end Extraction

end ResourceArchive
