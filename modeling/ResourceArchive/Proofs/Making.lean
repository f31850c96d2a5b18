import ResourceArchive.FileSystem.Access
import ResourceArchive.Proofs.Descent

/-! Making directories and files. On a path that goes down from a directory, every directory that is
    missing is made, and nothing else changes; then a file can be written at the end of the path. -/

namespace ResourceArchive

namespace Node

variable {n m new : Node} {name : Bytes} {place : Place} {kind : Kind}

theorem kindAt_cons (n : Node) (name : Bytes) (place : Place) :
    n.kindAt (name :: place) = (n.child? name).bind (·.kindAt place) := by
  rw [kindAt, at?_cons, Option.map_bind]
  rfl

theorem kindAt_nil (n : Node) : n.kindAt [] = some n.kind := rfl

theorem kindAt_eq_directory (h : n.kindAt [] = some .directory) : ∃ entries, n = directory entries := by
  cases n with
  | directory entries => exact ⟨entries, rfl⟩
  | _ => cases h

theorem put_nil (n new : Node) : n.put [] new = new := by
  cases n <;> rfl

/-- Nothing is below it. -/
def IsBare (n : Node) : Prop := ∀ name place, n.at? (name :: place) = none

theorem isBare_empty : empty.IsBare := fun _ _ => rfl

theorem isBare_file (id : FileId) : (file id).IsBare := fun _ _ => rfl

/-- What was put at a free place in a directory is there, and all else is as it was. -/
theorem kindAt_put (bare : new.IsBare) (way : n.kindAt place = some .directory)
    (free : n.kindAt (place ++ [name]) = none) (other : Place) :
    (n.put (place ++ [name]) new).kindAt other
      = if other = place ++ [name] then some new.kind else n.kindAt other := by
  induction place generalizing n other with
  | nil =>
    obtain ⟨entries, rfl⟩ := kindAt_eq_directory way
    rw [List.nil_append, put, put_nil]
    rcases other with _ | ⟨first, rest⟩
    · rfl
    · rw [kindAt_cons, child?, lookup_insertEntry]
      by_cases h : first = name
      · subst h
        rw [if_pos rfl, Option.bind_some]
        rcases rest with _ | ⟨second, rest⟩
        · rw [if_pos rfl, kindAt_nil]
        · rw [if_neg (by simp), kindAt, bare, kindAt_cons]
          rw [List.nil_append, kindAt, at?_singleton, Option.map_eq_none_iff] at free
          rw [free]
          rfl
      · rw [if_neg h, if_neg (by simp [h]), kindAt_cons]
        rfl
  | cons first' place ih =>
    obtain ⟨entries, rfl⟩ : ∃ entries, n = directory entries := by
      cases n with
      | directory entries => exact ⟨entries, rfl⟩
      | _ => cases way
    rw [kindAt_cons, Option.bind_eq_some_iff] at way
    obtain ⟨child, held, way⟩ := way
    rw [List.cons_append, kindAt_cons, held, Option.bind_some] at free
    rw [child?] at held
    rw [List.cons_append, put, held, Option.getD_some]
    rcases other with _ | ⟨first, rest⟩
    · rfl
    · rw [kindAt_cons, child?, lookup_insertEntry, kindAt_cons, child?]
      by_cases h : first = first'
      · subst h
        rw [if_pos rfl, held, Option.bind_some, Option.bind_some, ih way free]
        simp
      · rw [if_neg h, if_neg (by simp [h])]

end Node

namespace FileSystem

open FileAccess

variable {fs fs' : FileSystem} {p : Path} {base place : Place} {names : List Bytes} {name : Bytes}
  {node : Node} {content : Content}

/-! ### Putting -/

theorem kind?_put (bare : node.IsBare) (known : ∀ id ∈ node.fileIds, id < fs.contents.size)
    (way : fs.kind? place = some .directory) (free : fs.kind? (place ++ [name]) = none)
    (other : Place) : (fs.put (place ++ [name]) node known).kind? other
      = if other = place ++ [name] then some node.kind else fs.kind? other :=
  Node.kindAt_put bare way free other

/-- The same files, and the same directory where relative paths begin, and nothing taken away. -/
structure Grows (fs fs' : FileSystem) : Prop where
  tree : fs.root.Grows fs'.root
  workingDirectory : fs'.workingDirectory = fs.workingDirectory
  size_le : fs.contents.size ≤ fs'.contents.size
  contents : ∀ id, id < fs.contents.size → fs'.content id = fs.content id

theorem Grows.refl (fs : FileSystem) : fs.Grows fs := ⟨.refl _, rfl, Nat.le_refl _, fun _ _ => rfl⟩

theorem Grows.trans {fs'' : FileSystem} (h : fs.Grows fs') (h' : fs'.Grows fs'') : fs.Grows fs'' where
  tree := ⟨fun place kind held => h'.tree.kept place kind (h.tree.kept place kind held),
    fun place target held => h.tree.no_link place target (h'.tree.no_link place target held)⟩
  workingDirectory := h'.workingDirectory.trans h.workingDirectory
  size_le := Nat.le_trans h.size_le h'.size_le
  contents id known := (h'.contents id (Nat.lt_of_lt_of_le known h.size_le)).trans (h.contents id known)

/-- A tree in which some free places were taken, and not by links, has grown. -/
theorem tree_grows
    (changed : ∀ place, fs'.kind? place = fs.kind? place
      ∨ fs.kind? place = none ∧ ∀ target, fs'.kind? place ≠ some (.link target)) :
    fs.root.Grows fs'.root where
  kept place kind held := by
    rcases changed place with same | ⟨free, -⟩
    · exact same.trans held
    · rw [show fs.kind? place = some kind from held] at free
      cases free
  no_link place target held := by
    rcases changed place with same | ⟨-, noLink⟩
    · exact same.symm.trans held
    · exact absurd held (noLink target)

/-- The tree has grown when something other than a link was put at a free place. -/
theorem root_grows (bare : node.IsBare) (noLink : ∀ target, node.kind ≠ .link target)
    (way : fs.kind? place = some .directory) (free : fs.kind? (place ++ [name]) = none)
    (put : fs'.root = fs.root.put (place ++ [name]) node) : fs.root.Grows fs'.root := by
  refine tree_grows fun other => ?_
  rw [kind?, put, Node.kindAt_put bare way free]
  split
  · next same => exact .inr ⟨same ▸ free, by simpa using noLink⟩
  · exact .inl rfl

theorem grows_put (bare : node.IsBare) (known : ∀ id ∈ node.fileIds, id < fs.contents.size)
    (noLink : ∀ target, node.kind ≠ .link target) (way : fs.kind? place = some .directory)
    (free : fs.kind? (place ++ [name]) = none) :
    fs.Grows (fs.put (place ++ [name]) node known) where
  tree := root_grows bare noLink way free rfl
  workingDirectory := rfl
  size_le := Nat.le_refl _
  contents _ _ := rfl

theorem kind?_addFile (content : Content) (way : fs.kind? place = some .directory)
    (free : fs.kind? (place ++ [name]) = none) (other : Place) :
    (fs.addFile (place ++ [name]) content).kind? other
      = if other = place ++ [name] then some (.file fs.contents.size) else fs.kind? other :=
  Node.kindAt_put (Node.isBare_file _) way free other

theorem content_addFile (fs : FileSystem) (place : Place) (content : Content) :
    (fs.addFile place content).content fs.contents.size = content := by
  simp [FileSystem.content, addFile]

theorem grows_addFile (content : Content) (way : fs.kind? place = some .directory)
    (free : fs.kind? (place ++ [name]) = none) :
    fs.Grows (fs.addFile (place ++ [name]) content) where
  tree := root_grows (Node.isBare_file _) (by simp [Node.kind]) way free rfl
  workingDirectory := rfl
  size_le := by simp [addFile]
  contents id known := by
    simp [FileSystem.content, addFile, Array.getElem?_push, Nat.ne_of_lt known]

/-! ### Making directories -/

/-- No name on the way down is that of anything but a directory. -/
def Clear (fs : FileSystem) (base : Place) (names : List Bytes) : Prop :=
  ∀ front, front <+: names →
    fs.kind? (base ++ front) = none ∨ fs.kind? (base ++ front) = some .directory

/-- What is on the way down but for its end are directories. -/
def Open (fs : FileSystem) (base : Place) (names : List Bytes) : Prop :=
  ∀ front, front <+: names → front ≠ names → fs.kind? (base ++ front) = some .directory

theorem Open.above (way : fs.Open base (names ++ [name])) :
    fs.kind? (base ++ names) = some .directory :=
  way names (List.prefix_append _ _) (by simp)

theorem createDirectory_vacant (d : fs.Descends p base (names ++ [name]))
    (way : fs.Open base (names ++ [name])) (free : fs.kind? (base ++ names ++ [name]) = none) :
    fs.createDirectory p = .ok (fs.put (base ++ names ++ [name]) .empty) := by
  rw [List.append_assoc] at free ⊢
  rw [createDirectory, resolveNew, d.followSteps_vacant (by decide) way free]
  rfl

theorem createDirectory_present (d : fs.Descends p base names) (way : fs.Open base names)
    (held : fs.kind? (base ++ names) = some .directory) : fs.createDirectory p = .error .fileExists := by
  obtain ⟨q, found, -⟩ :=
    d.followSteps_present (by decide : Purpose.lookAtLink ≠ .canonical) way held (by simp)
  rw [createDirectory, resolveNew, found]
  rfl

theorem isDirectory_present (d : fs.Descends p base names) (way : fs.Open base names)
    (held : fs.kind? (base ++ names) = some .directory) : fs.isDirectory p := by
  obtain ⟨q, found, -, directory, -⟩ :=
    d.followSteps_present (by decide : Purpose.look ≠ .canonical) way held (by simp)
  rw [isDirectory, locate, resolve, d.steps_eq, found]
  exact Node.isDirectory_iff.2 directory

/-- A directory is neither there nor can it be made where one above it is missing. -/
theorem createDirectory_gap (d : fs.Descends p base names) (clear : fs.Clear base names)
    (gap : ¬fs.Open base names) :
    fs.createDirectory p = .error .noSuchFile ∧ fs.isDirectory p = false := by
  have missing : ∃ front, front <+: names ∧ front ≠ names ∧ fs.kind? (base ++ front) = none := by
    by_contra none
    refine gap fun front below less => ?_
    exact (clear front below).resolve_left fun free => none ⟨front, below, less, free⟩
  constructor
  · rw [createDirectory, resolveNew, d.followSteps_gap (by decide) clear missing]
    rfl
  · rw [isDirectory, locate, resolve, d.steps_eq, d.followSteps_gap (by decide) clear missing]

/-- An action whose first part is known. -/
theorem bind_apply {σ α β : Type} {x : StateM σ α} {f : α → StateM σ β} {s s' : σ} {a : α}
    (h : x s = (a, s')) : (x >>= f) s = f a s' := by
  show f (x s).1 (x s).2 = f a s'
  rw [h]

theorem attempt_ok {change : FileSystem → Except SystemError FileSystem} (h : change fs = .ok fs') :
    attempt change fs = (.ok (), fs') := by
  rw [attempt, h]

theorem attempt_error {change : FileSystem → Except SystemError FileSystem} {e : SystemError}
    (h : change fs = .error e) : attempt change fs = (.error e, fs) := by
  rw [attempt, h]

theorem ensureDirectory_eq (fs : FileSystem) (p : Path) :
    (ensureDirectory p : StateM FileSystem (Except SystemError Unit)) fs =
      match fs.createDirectory p with
      | .ok fs' => (.ok (), fs')
      | .error e => (if fs.isDirectory p then .ok () else .error e, fs) := by
  rw [ensureDirectory]
  rcases made : fs.createDirectory p with e | fs'
  · have refused : (FileAccess.createDirectory p : StateM FileSystem _) fs = (.error e, fs) :=
      attempt_error made
    rw [bind_apply refused]
    rfl
  · have done : (FileAccess.createDirectory p : StateM FileSystem _) fs = (.ok (), fs') :=
      attempt_ok made
    rw [bind_apply done]
    rfl

/-- Whatever of a way down is missing was made, and nothing else. -/
structure Opened (fs fs' : FileSystem) (base : Place) (names : List Bytes) : Prop where
  grows : fs.Grows fs'
  contents : fs'.contents = fs.contents
  made : ∀ front, front <+: names → fs'.kind? (base ++ front) = some .directory
  kept : ∀ place, (∀ front, front <+: names → place ≠ base ++ front) → fs'.kind? place = fs.kind? place

/-- With all above it there, a directory is made unless it is there. -/
theorem ensureDirectory_open (d : fs.Descends p base names) (clear : fs.Clear base names)
    (way : fs.Open base names) : ∃ fs',
      (ensureDirectory p : StateM FileSystem (Except SystemError Unit)) fs = (.ok (), fs')
        ∧ fs.Opened fs' base names := by
  obtain ⟨above, name, rfl⟩ : ∃ above name, names = above ++ [name] :=
    ⟨_, _, (List.dropLast_append_getLast d.ne_nil).symm⟩
  rw [ensureDirectory_eq]
  rcases clear _ (List.prefix_refl _) with free | held
  · rw [← List.append_assoc] at free
    have now := kind?_put Node.isBare_empty (by simp) way.above free
    rw [createDirectory_vacant d way free]
    have grows := grows_put Node.isBare_empty (by simp) (by simp [Node.kind, Node.empty]) way.above free
    refine ⟨_, rfl, grows, rfl, fun front below => ?_, fun place apart => ?_⟩
    · rw [now]
      split
      · rfl
      · next other =>
        refine way front below ?_
        rintro rfl
        exact other (List.append_assoc _ _ _).symm
    · rw [now, List.append_assoc, if_neg (apart _ (List.prefix_refl _))]
  · rw [createDirectory_present d way held]
    refine ⟨fs, by simp only [isDirectory_present d way held, if_true], .refl fs, rfl,
      fun front below => ?_, fun _ _ => rfl⟩
    by_cases whole : front = above ++ [name]
    · rw [whole, held]
    · exact way front below whole

/-- The end of a way is none of the places above it. -/
theorem append_concat_ne {front : List Bytes} (within : front <+: names) :
    base ++ (names ++ [name]) ≠ base ++ front := by
  intro same
  have longer := within.length_le
  have lengths := congrArg List.length same
  simp only [List.length_append, List.length_singleton] at lengths
  omega

/-- With all above it there, the last directory of a way is made. -/
theorem Opened.ensure {fs₁ : FileSystem} (opened : fs.Opened fs₁ base names)
    (d : fs.Descends p base (names ++ [name])) (clear : fs.Clear base (names ++ [name])) : ∃ fs₂,
      (ensureDirectory p : StateM FileSystem (Except SystemError Unit)) fs₁ = (.ok (), fs₂)
        ∧ fs.Opened fs₂ base (names ++ [name]) := by
  have d₁ := d.grows opened.grows.tree opened.grows.workingDirectory
  have way₁ : fs₁.Open base (names ++ [name]) := fun front below less =>
    opened.made front ((List.prefix_concat_iff.1 below).resolve_left less)
  have clear₁ : fs₁.Clear base (names ++ [name]) := by
    intro front below
    rcases List.prefix_concat_iff.1 below with rfl | within
    · rw [opened.kept _ fun front => append_concat_ne]
      exact clear _ below
    · exact .inr (opened.made front within)
  obtain ⟨fs₂, ensured, opened'⟩ := ensureDirectory_open d₁ clear₁ way₁
  refine ⟨fs₂, ensured, opened.grows.trans opened'.grows, opened'.contents.trans opened.contents,
    opened'.made, fun place apart => ?_⟩
  rw [opened'.kept place apart, opened.kept place fun front below =>
    apart front (below.trans (List.prefix_append _ _))]

theorem createLevels_eq (fs : FileSystem) (begun : p.bytes ≠ []) (n : Nat) :
    (createLevels p (n + 1) : StateM FileSystem (Except SystemError Unit)) fs =
      match (ensureDirectory p : StateM FileSystem (Except SystemError Unit)) fs with
      | (.error .noSuchFile, fs') =>
        match p.parent? with
        | none => (.error (.other "failed to create whole tree"), fs')
        | some parent =>
          match (createLevels parent n : StateM FileSystem (Except SystemError Unit)) fs' with
          | (.error e, fs'') => (.error e, fs'')
          | (.ok (), fs'') => (ensureDirectory p : StateM FileSystem (Except SystemError Unit)) fs''
      | (result, fs') => (result, fs') := by
  rw [createLevels, if_neg begun]
  rcases ensured : (ensureDirectory p : StateM FileSystem (Except SystemError Unit)) fs with
    ⟨result, fs'⟩
  rw [bind_apply ensured]
  rcases result with e | _
  · cases e with
    | noSuchFile =>
      rcases p.parent? with _ | parent
      · rfl
      · rcases levels : (createLevels parent n : StateM FileSystem (Except SystemError Unit)) fs' with
          ⟨e | _, fs''⟩
        · simp only
          rw [bind_apply levels, levels]
          rfl
        · simp only
          rw [bind_apply levels, levels]
    | _ => rfl
  · rfl

/-- All that is missing on the way down is made. -/
theorem createLevels_opened (d : fs.Descends p base names) (clear : fs.Clear base names) {n : Nat}
    (enough : names.length ≤ n) : ∃ fs',
      (createLevels p n : StateM FileSystem (Except SystemError Unit)) fs = (.ok (), fs')
        ∧ fs.Opened fs' base names := by
  induction n generalizing p names with
  | zero => exact absurd (List.length_eq_zero_iff.1 (Nat.le_zero.1 enough)) d.ne_nil
  | succ n ih =>
    rw [createLevels_eq fs d.bytes_ne_nil]
    by_cases way : fs.Open base names
    · obtain ⟨fs', ensured, opened⟩ := ensureDirectory_open d clear way
      exact ⟨fs', by rw [ensured], opened⟩
    · obtain ⟨refused, absent⟩ := createDirectory_gap d clear way
      rw [ensureDirectory_eq, refused, absent]
      obtain ⟨above, name, rfl⟩ : ∃ above name, names = above ++ [name] :=
        ⟨_, _, (List.dropLast_append_getLast d.ne_nil).symm⟩
      have more : above ≠ [] := by
        rintro rfl
        refine way fun front below less => ?_
        rcases List.prefix_concat_iff.1 below with whole | none
        · exact absurd whole less
        · rw [List.prefix_nil.1 none, List.append_nil, d.kind?_base]
      obtain ⟨q, parent, dq⟩ := d.parent more
      obtain ⟨fs₁, levels, opened⟩ := ih dq
        (fun front below => clear front (below.trans (List.prefix_append _ _)))
        (by simpa using enough)
      obtain ⟨fs', ensured, opened'⟩ := opened.ensure d clear
      exact ⟨fs', by simp only [parent, levels, ensured, Bool.false_eq_true, if_false], opened'⟩

/-- A path that goes down by names has a component for each of them. -/
theorem Down.filterMap_component? {steps : List Path.Step} (down : Down steps names) :
    steps.filterMap Path.Step.component? = names.map .name := by
  induction down with
  | nil => rfl
  | here _ ih => exact ih
  | name _ _ ih =>
    rw [List.map_cons, ← ih]
    rfl

theorem Descends.length_le (d : fs.Descends p base names) : names.length ≤ p.components.length := by
  obtain ⟨pos, head, init, last, -, -, parts, -, -, down⟩ := d
  rw [Path.components_eq, parts, List.filterMap_append, down.filterMap_component?]
  simp
  omega

theorem createDirectories_opened (d : fs.Descends p base names) (clear : fs.Clear base names) :
    ∃ fs', (createDirectories p : StateM FileSystem (Except SystemError Unit)) fs = (.ok (), fs')
      ∧ fs.Opened fs' base names :=
  createLevels_opened d clear (Nat.le_succ_of_le d.length_le)

/-! ### Writing -/

/-- A file is made where there is none. -/
theorem write_vacant (d : fs.Descends p base names) (way : fs.Open base names)
    (free : fs.kind? (base ++ names) = none) (content : Content) :
    fs.write p content = .ok (fs.addFile (base ++ names) content) := by
  rw [write, resolve, d.steps_eq, d.followSteps_vacant (by decide) way free]
  rfl

end FileSystem

end ResourceArchive
