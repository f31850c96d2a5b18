import ResourceArchive.Proofs.Making

/-! Files and directories, and the paths that lead to them. A path that leads to a file or a directory still
    does when things are added. A path to which a file was written leads to a file with just that content,
    be it a new one or the one that was there, and a path at which a directory was made leads to one. A slash
    at the end of a path to a directory is of no consequence. -/

namespace ResourceArchive.FileSystem

open FileAccess
open ResourceArchive.Path (Step)

variable {fs fs' : FileSystem} {p : Path} {pos q : Position} {purpose : Purpose} {steps : List Step}
  {links n : Nat} {r : Stretch} {id : FileId} {content : Content} {place : Place}

/-! ### What is found -/

theorem locate_eq_ok : fs.locate purpose p = .ok q ↔ ∃ pos, fs.start p = .ok pos
    ∧ p.bytes.length ≤ pathLimit ∧ fs.walk purpose linkLimit pos p.steps = .ok (.present q) := by
  rw [locate, resolve, followSteps]
  rcases begins : fs.start p with e | pos
  · simp
  · by_cases fits : pathLimit < p.bytes.length
    · simp only [if_pos fits]
      simp [Nat.not_le.2 fits]
    · simp only [if_neg fits]
      rcases led : fs.walk purpose linkLimit pos p.steps with e | ⟨q'⟩ | place <;>
        simp [Nat.not_lt.1 fits, led]

theorem isIn_of_walk (h : purpose ≠ .canonical) (isIn : pos.IsIn fs.root)
    (led : fs.walk purpose links pos steps = .ok (.present q)) : q.IsIn fs.root := by
  obtain ⟨_, -, grown⟩ := walk_grows h (.refl fs.root) (.refl isIn) led
  cases grown with
  | present alike => exact alike.isIn

theorem locate_grows (tree : fs.root.Grows fs'.root)
    (stays : fs'.workingDirectory = fs.workingDirectory) (found : fs.locate .look p = .ok q) :
    ∃ q', fs'.locate .look p = .ok q' ∧ q.Alike fs.root fs'.root q' := by
  obtain ⟨pos, begins, fits, led⟩ := locate_eq_ok.1 found
  obtain ⟨pos', begins', alike⟩ := start_grows begins tree stays
  obtain ⟨target, led', grown⟩ := walk_grows (by decide) tree alike led
  cases grown with
  | present alike => exact ⟨_, locate_eq_ok.2 ⟨pos', begins', fits, led'⟩, alike⟩

/-- A path that led to where something could be leads there when it is. -/
theorem walk_filled {kind : Kind} (h : purpose ≠ .canonical) (grows : fs.Grows fs')
    (begins : fs.start p = .ok pos) (led : fs.walk purpose links pos steps = .ok (.vacant place))
    (there : fs'.kind? place = some kind) :
    ∃ pos' q, fs'.start p = .ok pos' ∧ fs'.walk purpose links pos' steps = .ok (.present q)
      ∧ q.node.kind = kind := by
  obtain ⟨pos', begins', alike⟩ := start_grows begins grows.tree grows.workingDirectory
  obtain ⟨target, led', grown⟩ := walk_grows h grows.tree alike led
  cases grown with
  | vacant above before after =>
    rw [kind?, after] at there
    cases there
  | @filled above name q _ before isIn here kept =>
    have held := isIn.kindAt
    rw [here] at held
    exact ⟨pos', q, begins', led', Option.some.inj (held.symm.trans there)⟩

theorem fileAt_eq_ok : fs.fileAt p = .ok id ↔ ∃ q, fs.locate .look p = .ok q ∧ q.node = .file id := by
  rw [fileAt]
  rcases fs.locate .look p with e | q
  · simp [bind, Except.bind]
  · rcases file : q.node with entries | id' | target <;>
      simp [bind, Except.bind, pure, Except.pure, throw, throwThe, MonadExceptOf.throw, file]

/-- A file that is found has a content. -/
theorem size_of_fileAt (found : fs.fileAt p = .ok id) : id < fs.contents.size := by
  obtain ⟨q, located, file⟩ := fileAt_eq_ok.1 found
  obtain ⟨pos, begins, -, led⟩ := locate_eq_ok.1 located
  refine fs.known id (Node.fileIds_at? (isIn_of_walk (by decide) (isIn_of_start begins) led).at? ?_)
  rw [file]
  exact .head _

theorem isDirectory_iff : fs.isDirectory p ↔ ∃ q, fs.locate .look p = .ok q ∧ q.node.isDirectory := by
  rw [isDirectory]
  rcases fs.locate .look p with e | q <;> simp

theorem isDirectory_grows (grows : fs.Grows fs') (there : fs.isDirectory p) : fs'.isDirectory p := by
  obtain ⟨q, found, directory⟩ := isDirectory_iff.1 there
  obtain ⟨q', found', alike⟩ := locate_grows grows.tree grows.workingDirectory found
  exact isDirectory_iff.2 ⟨q', found', (alike.isDirectory_eq grows.tree).trans directory⟩

/-! ### Slashes at the end -/

theorem stretch_of_slash (led : stretch .look pos (steps ++ [.slash]) = .ok r) :
    (∃ q, r = .done (.present q) ∧ stretch .look pos steps = .ok r)
      ∨ ∃ directory target rest, r = .link directory target (rest ++ [.slash])
        ∧ stretch .look pos steps = .ok (.link directory target rest) := by
  induction steps generalizing pos with
  | nil =>
    rw [List.nil_append, stretch_stay (isDirectory_of_stretch led) (.inr rfl)] at led
    cases led
    exact .inl ⟨pos, rfl, rfl⟩
  | cons step rest ih =>
    have directory := isDirectory_of_stretch led
    rw [List.cons_append] at led
    cases step with
    | here | slash =>
      rw [stretch_stay directory (by simp)] at led ⊢
      exact ih led
    | up =>
      rw [stretch_up directory] at led ⊢
      exact ih led
    | name name =>
      obtain ⟨kept, short, -⟩ := name_of_stretch (by decide) led
      rw [stretch_name (by decide) directory kept short (by simp)] at led ⊢
      rcases held : pos.node.child? name with _ | ⟨entries⟩ | ⟨id⟩ | ⟨target⟩
      · rw [held] at led
        simp at led
      · rw [held] at led
        exact ih led
      · rw [held] at led
        exact ih led
      · rw [held] at led
        simp only [reduceCtorEq, and_false, if_false] at led ⊢
        cases led
        exact .inr ⟨pos, target, rest, rfl, rfl⟩

theorem walk_of_slash (led : fs.walk .look links pos (steps ++ [.slash]) = .ok (.present q)) :
    fs.walk .look links pos steps = .ok (.present q) := by
  induction links using Nat.strongRecOn generalizing pos steps with
  | ind links ih =>
    rw [walk] at led ⊢
    rcases stretched : stretch .look pos (steps ++ [.slash]) with e | r
    · rw [stretched] at led
      cases led
    rw [stretched] at led
    rcases stretch_of_slash stretched with ⟨q', rfl, same⟩ | ⟨directory, target, rest, rfl, same⟩
    · rw [same]
      exact led
    · rw [same]
      rcases links with _ | links
      · cases led
      simp only [← List.append_assoc] at led ⊢
      exact ih links (Nat.lt_succ_self links) led

/-- What is found is reached without the slash at the end. -/
theorem walk_of_locate (located : fs.locate .look p = .ok q) :
    ∃ pos, fs.start p = .ok pos ∧ fs.walk .look linkLimit pos p.baseSteps = .ok (.present q) := by
  obtain ⟨pos, begins, -, led⟩ := locate_eq_ok.1 located
  refine ⟨pos, begins, ?_⟩
  rw [Path.steps] at led
  split at led
  · exact walk_of_slash led
  · rwa [List.append_nil] at led

/-- A slash at the end of a path to a directory is of no consequence. -/
theorem locate_of_walk (begins : fs.start p = .ok pos) (fits : p.bytes.length ≤ pathLimit)
    (led : fs.walk .look linkLimit pos p.baseSteps = .ok (.present q)) (directory : q.node.isDirectory) :
    fs.locate .look p = .ok q := by
  refine locate_eq_ok.2 ⟨pos, begins, fits, ?_⟩
  rw [Path.steps]
  split
  · obtain ⟨left, onward⟩ :=
      walk_append (by decide : Purpose.look ≠ .canonical) (List.cons_ne_nil Step.slash []) (by simp) led
    rw [onward, walk, stretch_stay directory (.inr rfl)]
    rfl
  · rwa [List.append_nil]

/-! ### Writing -/

/-- A path is written to if it leads to a file, or to a directory that lacks just the last name. -/
theorem write_eq_ok : fs.write p content = .ok fs' ↔ ∃ pos, fs.start p = .ok pos
    ∧ p.bytes.length ≤ pathLimit
    ∧ ((∃ q id, fs.walk .write linkLimit pos p.steps = .ok (.present q) ∧ q.node = .file id
          ∧ fs' = fs.setContent id content)
      ∨ ∃ place, fs.walk .write linkLimit pos p.steps = .ok (.vacant place)
          ∧ fs' = fs.addFile place content) := by
  rw [write, resolve, followSteps]
  rcases begins : fs.start p with e | pos
  · simp [bind, Except.bind]
  by_cases long : pathLimit < p.bytes.length
  · simp [bind, Except.bind, long, Nat.not_le.2 long]
  have fits := Nat.not_lt.1 long
  rcases led : fs.walk .write linkLimit pos p.steps with e | ⟨q⟩ | place
  · simp [bind, Except.bind, long, led]
  · rcases file : q.node with entries | id | target <;>
      simp [bind, Except.bind, pure, Except.pure, throw, throwThe, MonadExceptOf.throw, long, fits, led,
        file, eq_comm]
  · simp [bind, Except.bind, pure, Except.pure, long, fits, led, eq_comm]

/-- A file is written in place, or is new in a directory. -/
theorem write_cases (written : fs.write p content = .ok fs') :
    (∃ id, fs.fileAt p = .ok id ∧ fs' = fs.setContent id content)
      ∨ ∃ pos place, fs.start p = .ok pos ∧ p.bytes.length ≤ pathLimit
        ∧ fs.walk .write linkLimit pos p.steps = .ok (.vacant place)
        ∧ fs' = fs.addFile place content := by
  obtain ⟨pos, begins, fits, ⟨q, id, led, file, rfl⟩ | ⟨place, led, rfl⟩⟩ := write_eq_ok.1 written
  · have looked := walk_look_present (by decide) led (by simp [file])
    exact .inl ⟨id, fileAt_eq_ok.2 ⟨q, locate_eq_ok.2 ⟨pos, begins, fits, looked⟩, file⟩, rfl⟩
  · exact .inr ⟨pos, place, begins, fits, led, rfl⟩

/-- Where a file was free to be made, the way leads to it once it was. -/
theorem walk_addFile (content : Content) (begins : fs.start p = .ok pos)
    (led : fs.walk .write linkLimit pos p.steps = .ok (.vacant place)) :
    ∃ pos' q, (fs.addFile place content).start p = .ok pos'
      ∧ (fs.addFile place content).walk .write linkLimit pos' p.steps = .ok (.present q)
      ∧ q.node = .file fs.contents.size := by
  obtain ⟨above, name, rfl, way, free⟩ := vacant_of_walk (by decide) (isIn_of_start begins) led
  have there : (fs.addFile (above ++ [name]) content).kind? (above ++ [name])
      = some (.file fs.contents.size) := by
    rw [kind?_addFile content way free, if_pos rfl]
  obtain ⟨pos', q, begins', led', file⟩ :=
    walk_filled (by decide) (grows_addFile content way free) begins led there
  exact ⟨pos', q, begins', led', Node.kind_eq_file.1 file⟩

/-- What was written can be written once more. -/
theorem exists_write_of_write (written : fs.write p content = .ok fs') (later : Content) :
    ∃ fs'', fs'.write p later = .ok fs'' := by
  obtain ⟨pos, begins, fits, ⟨q, id, led, file, rfl⟩ | ⟨place, led, rfl⟩⟩ := write_eq_ok.1 written
  · have tree : fs.root.Grows (fs.setContent id content).root := .refl fs.root
    obtain ⟨pos', begins', alike⟩ := start_grows begins tree rfl
    obtain ⟨target, led', grown⟩ := walk_grows (by decide) tree alike led
    cases grown with
    | present alike =>
      have kind := alike.kind_eq tree
      rw [file, show Node.kind (.file id) = .file id from rfl, Node.kind_eq_file] at kind
      exact ⟨_, write_eq_ok.2 ⟨pos', begins', fits, .inl ⟨_, id, led', kind, rfl⟩⟩⟩
  · obtain ⟨pos', q, begins', led', file⟩ := walk_addFile content begins led
    exact ⟨_, write_eq_ok.2 ⟨pos', begins', fits, .inl ⟨q, _, led', file, rfl⟩⟩⟩

/-- A directory is made just where one lacks the last name. -/
theorem createDirectory_eq_ok : fs.createDirectory p = .ok fs' ↔ ∃ pos place, fs.start p = .ok pos
    ∧ p.bytes.length ≤ pathLimit ∧ fs.walk .lookAtLink linkLimit pos p.baseSteps = .ok (.vacant place)
    ∧ fs' = fs.put place .empty := by
  rw [createDirectory, resolveNew, followSteps]
  rcases begins : fs.start p with e | pos
  · simp [bind, Except.bind]
  by_cases long : pathLimit < p.bytes.length
  · simp [bind, Except.bind, long, Nat.not_le.2 long]
  rcases led : fs.walk .lookAtLink linkLimit pos p.baseSteps with e | ⟨q⟩ | place
  · simp [bind, Except.bind, long, led]
  · simp [bind, Except.bind, throw, throwThe, MonadExceptOf.throw, long, led]
  · simp [bind, Except.bind, pure, Except.pure, long, Nat.not_lt.1 long, led, eq_comm]

theorem createDirectory_grows (made : fs.createDirectory p = .ok fs') :
    fs.Grows fs' ∧ fs'.contents = fs.contents := by
  obtain ⟨pos, place, begins, -, led, rfl⟩ := createDirectory_eq_ok.1 made
  obtain ⟨above, name, rfl, way, free⟩ := vacant_of_walk (by decide) (isIn_of_start begins) led
  exact ⟨grows_put Node.isBare_empty (by simp) (by simp [Node.kind, Node.empty]) way free, rfl⟩

/-- A directory that was made is there. -/
theorem isDirectory_of_createDirectory (made : fs.createDirectory p = .ok fs') : fs'.isDirectory p := by
  have grows := (createDirectory_grows made).1
  obtain ⟨pos, place, begins, fits, led, rfl⟩ := createDirectory_eq_ok.1 made
  obtain ⟨above, name, rfl, way, free⟩ := vacant_of_walk (by decide) (isIn_of_start begins) led
  have there : (fs.put (above ++ [name]) .empty).kind? (above ++ [name]) = some .directory := by
    rw [kind?_put Node.isBare_empty (by simp) way free, if_pos rfl]
    rfl
  obtain ⟨pos', q, begins', led', directory⟩ := walk_filled (by decide) grows begins led there
  have looked := walk_look_present (by decide) led' fun link linked => by
    rw [linked] at directory
    cases directory
  have directory := Node.isDirectory_iff.2 directory
  exact isDirectory_iff.2 ⟨q, locate_of_walk begins' fits looked directory, directory⟩

/-- What is a directory already is left as it is. -/
theorem ensureDirectory_of_isDirectory (there : fs.isDirectory p) :
    (ensureDirectory p : StateM FileSystem (Except SystemError Unit)) fs = (.ok (), fs) := by
  rw [ensureDirectory_eq]
  rcases made : fs.createDirectory p with e | fs'
  · simp only [there, if_true]
  · obtain ⟨pos, place, begins, -, led, -⟩ := createDirectory_eq_ok.1 made
    obtain ⟨q, found, -⟩ := isDirectory_iff.1 there
    obtain ⟨pos', begins', led'⟩ := walk_of_locate found
    cases begins.symm.trans begins'
    cases led'.symm.trans (walk_look (by decide) led (by simp))

theorem createDirectories_of_isDirectory (there : fs.isDirectory p) :
    (createDirectories p : StateM FileSystem (Except SystemError Unit)) fs = (.ok (), fs) := by
  obtain ⟨q, found, -⟩ := isDirectory_iff.1 there
  obtain ⟨pos, begins, -⟩ := locate_eq_ok.1 found
  rw [createDirectories, createLevels_eq fs (bytes_ne_nil_of_start begins),
    ensureDirectory_of_isDirectory there]

theorem ensureDirectory_grows {result : Except SystemError Unit}
    (ensured : (ensureDirectory p : StateM FileSystem (Except SystemError Unit)) fs = (result, fs')) :
    fs.Grows fs' ∧ fs'.contents = fs.contents := by
  rw [ensureDirectory_eq] at ensured
  rcases made : fs.createDirectory p with e | fs''
  · rw [made] at ensured
    cases ensured
    exact ⟨.refl fs, rfl⟩
  · rw [made] at ensured
    cases ensured
    exact createDirectory_grows made

theorem isDirectory_of_ensureDirectory
    (ensured : (ensureDirectory p : StateM FileSystem (Except SystemError Unit)) fs = (.ok (), fs')) :
    fs'.isDirectory p := by
  rw [ensureDirectory_eq] at ensured
  rcases made : fs.createDirectory p with e | fs''
  · by_cases there : fs.isDirectory p
    · simp only [made, there, if_true] at ensured
      cases ensured
      exact there
    · simp only [made, there] at ensured
      cases ensured
  · rw [made] at ensured
    cases ensured
    exact isDirectory_of_createDirectory made

/-- Directories that were made are there, with all that was there before. -/
theorem createLevels_ok
    (made : (createLevels p n : StateM FileSystem (Except SystemError Unit)) fs = (.ok (), fs')) :
    fs.Grows fs' ∧ fs'.contents = fs.contents ∧ (p.bytes ≠ [] → fs'.isDirectory p) := by
  induction n generalizing p fs fs' with
  | zero => cases made
  | succ n ih =>
    by_cases begun : p.bytes = []
    · rw [createLevels, if_pos begun] at made
      cases made
      exact ⟨.refl fs, rfl, absurd begun⟩
    rw [createLevels_eq fs begun] at made
    rcases ensured : (ensureDirectory p : StateM FileSystem (Except SystemError Unit)) fs with
      ⟨e | _, fs₁⟩
    · obtain ⟨grows, contents⟩ := ensureDirectory_grows ensured
      rw [ensured] at made
      cases e with
      | noSuchFile =>
        rcases above : p.parent? with _ | parent
        · simp only [above] at made
          cases made
        · rcases levels : (createLevels parent n : StateM FileSystem (Except SystemError Unit)) fs₁ with
            ⟨e | _, fs₂⟩
          · simp only [above, levels] at made
            cases made
          · simp only [above, levels] at made
            obtain ⟨grows', contents', -⟩ := ih levels
            obtain ⟨grows'', contents''⟩ := ensureDirectory_grows made
            exact ⟨(grows.trans grows').trans grows'', contents''.trans (contents'.trans contents),
              fun _ => isDirectory_of_ensureDirectory made⟩
      | _ => cases made
    · rw [ensured] at made
      cases made
      obtain ⟨grows, contents⟩ := ensureDirectory_grows ensured
      exact ⟨grows, contents, fun _ => isDirectory_of_ensureDirectory ensured⟩

end ResourceArchive.FileSystem
