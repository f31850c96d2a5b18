import ResourceArchive.Proofs.Walking

/-! Paths that go to a directory, in whatever way, and from there only down. Where such a path ends is
    told by its names alone: at the last of them, or, if one before the last is missing, nowhere. Its
    parent is such a path too. -/

namespace ResourceArchive.FileSystem

open ResourceArchive.Path (Step)

variable {root : Node} {pos q : Position} {purpose : Purpose} {head tail init steps : List Step}
  {fs fs' : FileSystem} {name : Bytes} {base place : Place} {names : List Bytes} {p : Path}

/-- What is at a place of a file system. -/
def kind? (fs : FileSystem) (place : Place) : Option Kind := fs.root.kindAt place

/-! ### Where paths begin -/

theorem isIn_of_start (h : fs.start p = .ok pos) : pos.IsIn fs.root := by
  rw [start] at h
  split at h
  · cases h
  · split at h
    · cases h
    · split at h
      · cases h
        exact Position.isIn_root _
      · split at h
        · next there led =>
          cases h
          exact ((Position.isIn_root fs.root).descend rfl led).1
        · cases h

theorem bytes_ne_nil_of_start (h : fs.start p = .ok pos) : p.bytes ≠ [] := by
  intro none
  rw [start] at h
  simp [none] at h

theorem place_of_start (h : fs.start p = .ok pos) :
    pos.place = if p.isAbsolute then [] else fs.workingDirectory.place := by
  rw [start] at h
  split at h
  · cases h
  · split at h
    · cases h
    · split at h
      · next absolute =>
        cases h
        rw [if_pos absolute]
        rfl
      · next relative =>
        rw [if_neg relative]
        split at h
        · next there led =>
          cases h
          exact ((Position.isIn_root fs.root).descend rfl led).2.1
        · cases h

/-- A path begins where a longer one does. -/
theorem start_of_front {p q : Path} (h : fs.start p = .ok pos) (front : q.bytes <+: p.bytes)
    (some : q.bytes ≠ []) : fs.start q = .ok pos := by
  obtain ⟨⟨bs⟩⟩ := q
  · exact absurd rfl some
  next b bs =>
  obtain ⟨rest, eq⟩ := front
  obtain ⟨bytes⟩ := p
  obtain rfl : b :: bs ++ rest = bytes := eq
  rw [start] at h ⊢
  split at h
  · cases h
  · next clean =>
    have clean' : ¬(b :: bs).contains 0 := by
      intro zero
      rw [List.contains_iff_mem] at zero clean
      exact clean (List.mem_append_left _ zero)
    rw [if_neg clean', if_neg (List.cons_ne_nil b bs)]
    rw [if_neg (by simp)] at h
    exact h

/-- Where a path begins stays when things are added. -/
theorem start_grows (h : fs.start p = .ok pos) (grows : fs.root.Grows fs'.root)
    (stays : fs'.workingDirectory = fs.workingDirectory) :
    ∃ pos', fs'.start p = .ok pos' ∧ pos.Alike fs.root fs'.root pos' := by
  rw [start] at h ⊢
  split at h
  · cases h
  · next clean =>
    rw [if_neg clean]
    split at h
    · cases h
    · next some =>
      rw [if_neg some]
      split at h
      · next absolute =>
        cases h
        exact ⟨_, if_pos absolute, .atRoot _ _⟩
      · next relative =>
        rw [if_neg relative, stays]
        split at h
        · next there led =>
          cases h
          obtain ⟨there', led', alike⟩ :=
            (Position.Alike.atRoot fs.root fs'.root).descend grows led
          rw [led']
          exact ⟨_, rfl, alike.isIn, alike.isIn', alike.place_eq, rfl⟩
        · cases h

/-! ### On from a directory -/

/-- Steps that lead to a directory, be it through links. -/
def Leads (fs : FileSystem) (pos : Position) (steps : List Step) (place : Place) : Prop :=
  ∃ q, fs.walk .look linkLimit pos steps = .ok (.present q) ∧ q.IsIn fs.root ∧ q.node.isDirectory
    ∧ q.removed = 0 ∧ q.place = place

namespace Leads

theorem kind?_eq (leads : fs.Leads pos steps place) : fs.kind? place = some .directory := by
  obtain ⟨q, -, isIn, directory, -, rfl⟩ := leads
  rw [kind?, isIn.kindAt, Node.isDirectory_iff.1 directory]

theorem grows {pos' : Position} (leads : fs.Leads pos steps place)
    (alike : pos.Alike fs.root fs'.root pos') (grows : fs.root.Grows fs'.root) :
    fs'.Leads pos' steps place := by
  obtain ⟨q, walked, -, directory, kept, rfl⟩ := leads
  obtain ⟨target, walked', grown⟩ := walk_grows (by decide) grows alike walked
  cases grown with
  | present alike =>
    exact ⟨_, walked', alike.isIn', (alike.isDirectory_eq grows).trans directory,
      alike.removed_eq.trans kept, alike.place_eq⟩

/-- What is not there can be made. -/
theorem walk_vacant (leads : fs.Leads pos steps place) (h : purpose ≠ .canonical)
    (short : name.length ≤ nameLimit) (free : fs.kind? (place ++ [name]) = none) :
    fs.walk purpose linkLimit pos (steps ++ [.name name]) = .ok (.vacant (place ++ [name])) := by
  obtain ⟨q, walked, isIn, directory, kept, rfl⟩ := leads
  obtain ⟨left, onward⟩ := walk_append h (List.cons_ne_nil (.name name) []) (by simp) walked
  rw [kind?, isIn.kindAt_name, Option.map_eq_none_iff] at free
  rw [onward, walk, stretch_name h directory kept short (by simp), free]
  rfl

/-- Nothing is found below what is not there. -/
theorem walk_missing (leads : fs.Leads pos steps place) (h : purpose ≠ .canonical)
    (short : name.length ≤ nameLimit) (free : fs.kind? (place ++ [name]) = none) (some : tail ≠ [])
    (unclosed : tail ≠ [.slash]) :
    fs.walk purpose linkLimit pos (steps ++ .name name :: tail) = .error .noSuchFile := by
  obtain ⟨q, walked, isIn, directory, kept, rfl⟩ := leads
  obtain ⟨left, onward⟩ := walk_append h (List.cons_ne_nil (.name name) tail) (by simp) walked
  rw [kind?, isIn.kindAt_name, Option.map_eq_none_iff] at free
  rw [onward, walk, stretch_name h directory kept short (by simp [unclosed]), free]
  simp [some]

/-- What is there and is no link is found. -/
theorem walk_present {kind : Kind} (leads : fs.Leads pos steps place) (h : purpose ≠ .canonical)
    (short : name.length ≤ nameLimit) (held : fs.kind? (place ++ [name]) = some kind)
    (noLink : ∀ target, kind ≠ .link target) :
    ∃ q, fs.walk purpose linkLimit pos (steps ++ [.name name]) = .ok (.present q)
      ∧ q.IsIn fs.root ∧ q.node.kind = kind ∧ q.removed = 0 ∧ q.place = place ++ [name] := by
  obtain ⟨q, walked, isIn, directory, kept, rfl⟩ := leads
  obtain ⟨left, onward⟩ := walk_append h (List.cons_ne_nil (.name name) []) (by simp) walked
  rw [kind?, isIn.kindAt_name, Option.map_eq_some_iff] at held
  obtain ⟨child, held, rfl⟩ := held
  refine ⟨q.down name child, ?_, isIn.down held, rfl, rfl, Position.place_down⟩
  rw [onward, walk, stretch_name h directory kept short (by simp), held]
  cases child with
  | link target => exact absurd rfl (noLink target)
  | directory | file => rfl

theorem enter (leads : fs.Leads pos steps place) (short : name.length ≤ nameLimit)
    (held : fs.kind? (place ++ [name]) = some .directory) :
    fs.Leads pos (steps ++ [.name name]) (place ++ [name]) := by
  obtain ⟨q, walked, isIn, directory, kept, there⟩ :=
    leads.walk_present (by decide : Purpose.look ≠ .canonical) short held (by simp)
  exact ⟨q, walked, isIn, Node.isDirectory_iff.2 directory, kept, there⟩

theorem stay (leads : fs.Leads pos steps place) : fs.Leads pos (steps ++ [.here]) place := by
  obtain ⟨q, walked, isIn, directory, kept, there⟩ := leads
  obtain ⟨left, onward⟩ :=
    walk_append (by decide : Purpose.look ≠ .canonical) (List.cons_ne_nil Step.here []) (by simp) walked
  refine ⟨q, ?_, isIn, directory, kept, there⟩
  rw [onward, walk, stretch_stay directory (.inl rfl)]
  rfl

end Leads

/-! ### Down by names -/

/-- Steps that go down by names, which are not too long. -/
inductive Down : List Step → List Bytes → Prop where
  | nil : Down [] []
  | here {steps : List Step} {names : List Bytes} (down : Down steps names) :
      Down (.here :: steps) names
  | name {name : Bytes} {steps : List Step} {names : List Bytes} (short : name.length ≤ nameLimit)
      (down : Down steps names) : Down (.name name :: steps) (name :: names)

namespace Down

theorem append {names' : List Bytes} (down : Down init names) (more : Down tail names') :
    Down (init ++ tail) (names ++ names') := by
  induction down with
  | nil => exact more
  | here _ ih => exact .here ih
  | name short _ ih => exact .name short ih

theorem of_append_name (down : Down (init ++ [.name name]) names) :
    ∃ above, names = above ++ [name] ∧ Down init above ∧ name.length ≤ nameLimit := by
  induction init generalizing names with
  | nil =>
    cases down with
    | name short down =>
      cases down
      exact ⟨[], rfl, .nil, short⟩
  | cons step init ih =>
    cases down with
    | here down =>
      obtain ⟨above, rfl, down, short⟩ := ih down
      exact ⟨above, rfl, .here down, short⟩
    | name short' down =>
      obtain ⟨above, rfl, down, short⟩ := ih down
      exact ⟨_ :: above, rfl, .name short' down, short⟩

theorem eq_here_of_nil (down : Down steps []) : ∀ step ∈ steps, step = .here := by
  generalize eq : ([] : List Bytes) = names at down
  induction down with
  | nil => simp
  | here _ ih =>
    intro step h
    rcases List.mem_cons.1 h with rfl | h
    · rfl
    · exact ih eq step h
  | name => cases eq

/-- The steps up to the last name. -/
theorem upToLast (down : Down steps (names ++ [name])) : ∃ init rest,
    steps = init ++ .name name :: rest ∧ (∀ step ∈ rest, step = .here)
      ∧ Down (init ++ [.name name]) (names ++ [name]) := by
  generalize eq : names ++ [name] = all at down
  induction down generalizing names with
  | nil => simp at eq
  | here _ ih =>
    obtain ⟨init, rest, rfl, stay, down⟩ := ih eq
    exact ⟨.here :: init, rest, rfl, stay, .here down⟩
  | @name first steps rest' short down' ih =>
    rcases names with _ | ⟨other, names⟩
    · obtain ⟨rfl, rfl⟩ := List.cons.inj eq
      exact ⟨[], steps, rfl, down'.eq_here_of_nil, .name short .nil⟩
    · obtain ⟨rfl, rfl⟩ := List.cons.inj eq
      obtain ⟨init, rest, rfl, stay, down⟩ := ih rfl
      exact ⟨.name other :: init, rest, rfl, stay, .name short down⟩

end Down

theorem Leads.down (leads : fs.Leads pos steps place) (down : Down init names)
    (way : ∀ front, front <+: names → fs.kind? (place ++ front) = some .directory) :
    fs.Leads pos (steps ++ init) (place ++ names) := by
  induction down generalizing steps place with
  | nil => simpa using leads
  | here _ ih => simpa using ih leads.stay way
  | @name first _ rest short _ ih =>
    have next := leads.enter short (way [first] (by simp))
    simpa using ih next fun front h => by
      simpa using way (first :: front) (List.prefix_cons_inj first |>.2 h)

/-- Nothing is found where a directory on the way down is missing. -/
theorem Leads.walk_gap (leads : fs.Leads pos steps place) (h : purpose ≠ .canonical)
    (down : Down init names)
    (clear : ∀ front, front <+: names →
      fs.kind? (place ++ front) = none ∨ fs.kind? (place ++ front) = some .directory)
    (gap : ∃ front, front <+: names ∧ fs.kind? (place ++ front) = none) :
    fs.walk purpose linkLimit pos (steps ++ (init ++ [.name name])) = .error .noSuchFile := by
  obtain ⟨front, below, free⟩ := gap
  induction down generalizing steps place front with
  | nil =>
    obtain rfl := List.prefix_nil.1 below
    rw [List.append_nil, leads.kind?_eq] at free
    cases free
  | here _ ih => simpa using ih leads.stay clear front below free
  | @name first init' rest short _ ih =>
    rcases clear [first] (by simp) with free' | held
    · refine leads.walk_missing h short free' (by simp) fun closed => ?_
      have last := congrArg List.getLast? closed
      simp at last
    · rcases front with _ | ⟨first', front⟩
      · rw [List.append_nil, leads.kind?_eq] at free
        cases free
      · obtain ⟨rfl, within⟩ := List.cons_prefix_cons.1 below
        have onward := ih (leads.enter short held) (fun front h => by
          simpa using clear (first' :: front) ((List.prefix_cons_inj first').2 h)) front within
          (by simpa using free)
        simpa using onward

/-! ### Paths that end by going down -/

/-- A path that goes to a directory at a base, and on down to the last of some names. -/
inductive Descends (fs : FileSystem) (p : Path) (base : Place) (names : List Bytes) : Prop where
  | intro (pos : Position) (head init : List Step) (name : Bytes) (begins : fs.start p = .ok pos)
      (fits : p.bytes.length ≤ pathLimit) (parts : p.baseSteps = head ++ (init ++ [.name name]))
      (unclosed : p.endsInSlash = false) (leads : fs.Leads pos head base)
      (down : Down (init ++ [.name name]) names)

namespace Descends

theorem ne_nil (d : fs.Descends p base names) : names ≠ [] := by
  obtain ⟨_, _, _, _, _, _, _, _, _, down⟩ := d
  obtain ⟨above, rfl, -, -⟩ := down.of_append_name
  simp

theorem bytes_ne_nil (d : fs.Descends p base names) : p.bytes ≠ [] := by
  obtain ⟨_, _, _, _, _, _, parts, _, _, _⟩ := d
  intro none
  rw [Path.baseSteps_eq, none] at parts
  simp [Path.segments, Path.step?] at parts

theorem kind?_base (d : fs.Descends p base names) : fs.kind? base = some .directory := by
  obtain ⟨_, _, _, _, _, _, _, _, leads, _⟩ := d
  exact leads.kind?_eq

theorem steps_eq (d : fs.Descends p base names) : p.steps = p.baseSteps := by
  obtain ⟨_, _, _, _, _, _, _, unclosed, _, _⟩ := d
  rw [Path.steps, unclosed, if_neg Bool.false_ne_true, List.append_nil]

theorem grows (d : fs.Descends p base names) (grows : fs.root.Grows fs'.root)
    (stays : fs'.workingDirectory = fs.workingDirectory) : fs'.Descends p base names := by
  obtain ⟨pos, head, init, name, begins, fits, parts, unclosed, leads, down⟩ := d
  obtain ⟨pos', begins', alike⟩ := start_grows begins grows stays
  exact ⟨pos', head, init, name, begins', fits, parts, unclosed, leads.grows alike grows, down⟩

/-- Where such a path leads, if all above its end is there. -/
theorem leads_above (d : fs.Descends p base names)
    (way : ∀ front, front <+: names → front ≠ names → fs.kind? (base ++ front) = some .directory) :
    ∃ pos steps above name, names = above ++ [name] ∧ name.length ≤ nameLimit
      ∧ fs.Leads pos steps (base ++ above)
      ∧ ∀ purpose, fs.followSteps purpose p p.baseSteps
        = fs.walk purpose linkLimit pos (steps ++ [.name name]) := by
  obtain ⟨pos, head, init, name, begins, fits, parts, unclosed, leads, down⟩ := d
  obtain ⟨above, rfl, down, short⟩ := down.of_append_name
  refine ⟨pos, head ++ init, above, name, rfl, short, leads.down down fun front h => ?_, ?_⟩
  · refine way front (h.trans (List.prefix_append _ _)) ?_
    rintro rfl
    have longer := h.length_le
    rw [List.length_append, List.length_singleton] at longer
    omega
  · intro purpose
    rw [followSteps, begins, parts, List.append_assoc]
    exact if_neg (Nat.not_lt.2 fits)

theorem followSteps_vacant (d : fs.Descends p base names) (h : purpose ≠ .canonical)
    (way : ∀ front, front <+: names → front ≠ names → fs.kind? (base ++ front) = some .directory)
    (free : fs.kind? (base ++ names) = none) :
    fs.followSteps purpose p p.baseSteps = .ok (.vacant (base ++ names)) := by
  obtain ⟨pos, steps, above, name, rfl, short, leads, follow⟩ := d.leads_above way
  rw [← List.append_assoc] at free ⊢
  rw [follow, leads.walk_vacant h short free]

theorem followSteps_present {kind : Kind} (d : fs.Descends p base names) (h : purpose ≠ .canonical)
    (way : ∀ front, front <+: names → front ≠ names → fs.kind? (base ++ front) = some .directory)
    (held : fs.kind? (base ++ names) = some kind) (noLink : ∀ target, kind ≠ .link target) :
    ∃ q, fs.followSteps purpose p p.baseSteps = .ok (.present q) ∧ q.IsIn fs.root
      ∧ q.node.kind = kind ∧ q.removed = 0 ∧ q.place = base ++ names := by
  obtain ⟨pos, steps, above, name, rfl, short, leads, follow⟩ := d.leads_above way
  rw [← List.append_assoc] at held ⊢
  rw [follow]
  exact leads.walk_present h short held noLink

theorem followSteps_gap (d : fs.Descends p base names) (h : purpose ≠ .canonical)
    (clear : ∀ front, front <+: names →
      fs.kind? (base ++ front) = none ∨ fs.kind? (base ++ front) = some .directory)
    (gap : ∃ front, front <+: names ∧ front ≠ names ∧ fs.kind? (base ++ front) = none) :
    fs.followSteps purpose p p.baseSteps = .error .noSuchFile := by
  obtain ⟨pos, head, init, name, begins, fits, parts, unclosed, leads, down⟩ := d
  obtain ⟨above, rfl, down, short⟩ := down.of_append_name
  obtain ⟨front, below, less, free⟩ := gap
  have walked : fs.walk purpose linkLimit pos (head ++ (init ++ [.name name])) = .error .noSuchFile :=
    leads.walk_gap h down (fun front h => clear front (h.trans (List.prefix_append _ _)))
      ⟨front, (List.prefix_concat_iff.1 below).resolve_left less, free⟩
  rw [followSteps, begins, parts]
  exact (if_neg (Nat.not_lt.2 fits)).trans walked

/-- The path of the directory above goes down by the names before the last. -/
theorem parent (d : fs.Descends p base (names ++ [name])) (more : names ≠ []) :
    ∃ q, p.parent? = some q ∧ fs.Descends q base names := by
  obtain ⟨pos, head, init, last, begins, fits, parts, unclosed, leads, down⟩ := d
  obtain ⟨above, same, down, -⟩ := down.of_append_name
  obtain ⟨rfl, -⟩ := List.append_inj' same rfl
  obtain ⟨above, other, rfl⟩ : ∃ above other, names = above ++ [other] :=
    ⟨_, _, (List.dropLast_append_getLast more).symm⟩
  obtain ⟨init, rest, rfl, stay, down⟩ := down.upToLast
  have ends : p.baseSteps = head ++ init ++ .name other :: (rest ++ .name last :: []) := by
    simp [parts]
  obtain ⟨q, parent, parts', unclosed', some, front⟩ := Path.exists_parent? ends stay (by simp)
  exact ⟨q, parent, pos, head, init, other, start_of_front begins front some,
    Nat.le_trans front.length_le fits, by simp [parts'], unclosed', leads, down⟩

end Descends

end ResourceArchive.FileSystem
