import ResourceArchive.Proofs.Descent
import ResourceArchive.Proofs.Sharing

/-! Pairs of openings and releases. A path that meets no link leads to where its components settle, or
    nowhere, whatever became of the files, so that a release takes back an opening of the container that
    the path was handed, and a registry whose openings were all taken back is empty. A link that is
    pointed elsewhere between the two breaks the pair: the release takes an opening from another
    container, and the first one stays. -/

namespace ResourceArchive

namespace FileSystem

open ResourceArchive.Path (Step)

variable {fs : FileSystem} {root : Node} {pos : Position} {purpose : Purpose} {steps rest : List Step}
  {name : Bytes} {place : Place} {p : Path} {links : Nat} {r : Stretch}

/-! ### Where a path settles -/

/-- Where a component leads from a place if nothing on the way is a link. -/
def settleComponent (place : Place) : Component → Place
  | .root => []
  | .here => place
  | .up => place.dropLast
  | .name name => place ++ [name]

/-- Where an absolute path leads if nothing on the way is a link. -/
def settle (components : List Component) : Place := components.foldl settleComponent []

/-- Nothing that a path meets is a link. -/
def IsLinkless (fs : FileSystem) (p : Path) : Prop := ∀ pos, fs.start p = .ok pos →
  ∀ directory target rest, stretch .canonical pos p.steps ≠ .ok (.link directory target rest)

/-- A stretch that ends at no link ends where its steps settle. -/
theorem place_of_stretch {q : Position} (kept : pos.removed = 0)
    (led : stretch purpose pos steps = .ok (.done (.present q))) :
    q.place = (steps.filterMap Step.component?).foldl settleComponent pos.place := by
  induction steps generalizing pos with
  | nil =>
    cases led
    rfl
  | cons step rest ih =>
    have directory := isDirectory_of_stretch led
    cases step with
    | here | slash =>
      rw [stretch_stay directory (by simp)] at led
      exact ih kept led
    | up =>
      rw [stretch_up directory] at led
      have onward := ih (Position.removed_up kept) led
      rwa [Position.place_up kept] at onward
    | name name =>
      rw [stretch, directory, if_neg (by decide)] at led
      split at led
      · cases led
      · rcases looked : child? purpose pos name rest with e | found
        · rw [looked] at led
          cases led
        · rw [looked] at led
          rcases found with _ | ⟨entries⟩ | ⟨id⟩ | ⟨target⟩
          · simp only at led
            split at led <;> cases led
          · have onward := ih rfl led
            rwa [Position.place_down] at onward
          · have onward := ih rfl led
            rwa [Position.place_down] at onward
          · simp only at led
            split at led
            · next last =>
              cases led
              rw [last.1]
              exact Position.place_down
            · cases led

theorem place_of_walk {q : Position} (kept : pos.removed = 0)
    (linkless : ∀ directory target rest, stretch purpose pos steps ≠ .ok (.link directory target rest))
    (led : fs.walk purpose links pos steps = .ok (.present q)) :
    q.place = (steps.filterMap Step.component?).foldl settleComponent pos.place := by
  rw [walk] at led
  rcases stretched : stretch purpose pos steps with e | target | ⟨directory, target, rest⟩
  · rw [stretched] at led
    cases led
  · rw [stretched] at led
    cases led
    exact place_of_stretch kept stretched
  · exact absurd stretched (linkless directory target rest)

/-- A trailing slash settles nowhere else. -/
theorem filterMap_steps (p : Path) :
    p.steps.filterMap Step.component? = p.baseSteps.filterMap Step.component? := by
  rw [Path.steps, List.filterMap_append]
  split <;> simp [Step.component?]

theorem foldl_settleComponent_names (place : Place) (names : List Bytes) :
    ((names.map .name).foldl settleComponent place) = place ++ names := by
  induction names generalizing place with
  | nil => simp
  | cons name names ih => simp [settleComponent, ih]

/-- The components of an absolute form are those of the directory at which the path begins, and then its
    own. -/
theorem settle_absolute {path : Path} (proper : ∀ n ∈ fs.workingDirectory.place, IsFileName n)
    (made : fs.absolute p = .ok path) : settle path.components
      = (p.baseSteps.filterMap Step.component?).foldl settleComponent
        (if p.isAbsolute then [] else fs.workingDirectory.place) := by
  rw [absolute] at made
  by_cases rooted : p.isAbsolute
  · rw [if_pos rooted] at made ⊢
    cases made
    rw [Path.components_of_isAbsolute rooted]
    rfl
  · rw [if_neg rooted] at made ⊢
    split at made
    · cases made
    · cases made
      have begun : (pathOf fs.workingDirectory.place).isAbsolute := rfl
      have some : (pathOf fs.workingDirectory.place).bytes ≠ [] := by simp [pathOf]
      have isRelative : p.isAbsolute = false := eq_false_of_ne_true rooted
      have names : (pathOf fs.workingDirectory.place).baseSteps
          = fs.workingDirectory.place.map .name := by
        rw [← Path.baseSteps_ofNames proper, Path.baseSteps_eq, pathOf, Path.segments_slash]
        rfl
      have components : (fs.workingDirectory.place.map Step.name).filterMap Step.component?
          = fs.workingDirectory.place.map .name := by
        rw [List.filterMap_map]
        exact congrFun List.filterMap_eq_map _
      rw [Path.components_of_isAbsolute ((Path.isAbsolute_join some isRelative).trans begun),
        Path.baseSteps_join _ isRelative, names, List.filterMap_append, components, settle,
        List.foldl_cons, List.foldl_append, settleComponent, foldl_settleComponent_names]
      rfl

/-- A path that meets no link leads nowhere else than to where its components settle. -/
theorem canonicalize_settles {path : Path} (linkless : fs.IsLinkless p)
    (proper : ∀ n ∈ fs.workingDirectory.place, IsFileName n) (made : fs.absolute p = .ok path)
    (found : fs.canonicalize p = .ok place) : settle path.components = place := by
  rw [canonicalize] at found
  rcases begins : fs.start p with e | pos
  · rw [begins] at found
    cases found
  · rw [begins] at found
    simp only at found
    split at found
    · cases found
    · next kept =>
      have kept := Decidable.not_not.1 kept
      rcases led : fs.walk .canonical linkLimit pos p.steps with e | ⟨q⟩ | _
      · rw [led] at found
        cases found
      · rw [led] at found
        cases found
        rw [settle_absolute proper made, place_of_walk kept (linkless pos begins) led, filterMap_steps,
          place_of_start begins]
      · rw [led] at found
        cases found

end FileSystem

namespace Session

variable {s : Session} {cwd : Place}

/-- What may happen where every release has an opening of the same path to take back, and the directory
    where relative paths begin stays. -/
def Paired (s : Session) : Event → Prop
  | .release p => ∃ o ∈ s.openings, s.files.spelling? p = some o.path
  | .change files => files.workingDirectory = s.files.workingDirectory
  | .acquire _ | .openCount _ | .size | .clear => True

/-! ### Without links -/

/-- What may happen where moreover the paths that the registry is asked for meet no link then. -/
def PairedWithoutLinks (cwd : Place) (s : Session) : Event → Prop
  | .release p => s.files.IsLinkless p ∧ s.files.workingDirectory.place = cwd
    ∧ ∃ o ∈ s.openings, s.files.spelling? p = some o.path
  | .acquire p | .openCount p => s.files.IsLinkless p ∧ s.files.workingDirectory.place = cwd
  | .size | .clear | .change _ => True

theorem atHome_of_isLinkless {files : FileSystem} {p : Path} (proper : ∀ n ∈ cwd, IsFileName n)
    (linkless : files.IsLinkless p) (stays : files.workingDirectory.place = cwd) :
    AtHome FileSystem.settle files p := by
  intro path place spelled found
  rw [FileSystem.spelling?] at spelled
  rcases made : files.absolute p with e | absolute
  · rw [made] at spelled
    cases spelled
  · rw [made] at spelled
    cases spelled
    exact FileSystem.canonicalize_settles linkless (stays ▸ proper) made found

theorem Reaches.imp {permitted permitted' : Session → Event → Prop}
    (weaker : ∀ s e, permitted s e → permitted' s e) (reached : Reaches permitted s) :
    Reaches permitted' s := by
  induction reached with
  | start order files => exact .start order files
  | step _ may ih => exact .step ih (weaker _ _ may)
  | shuffle _ same ih => exact .shuffle ih same

/-- Where the paths meet no link, whatever becomes of the files, and in whatever order entries are found: a
    release takes back an opening of the container that its path was handed, and a registry whose openings
    were all taken back is empty. -/
theorem paired_of_linkless (proper : ∀ n ∈ cwd, IsFileName n)
    (reached : Reaches (PairedWithoutLinks cwd) s) :
    (s.openings = [] → s.registry.entries = [])
    ∧ ∀ p, s.files.IsLinkless p → s.files.workingDirectory.place = cwd →
        ∀ o ∈ s.openings, s.files.spelling? p = some o.path →
          ∃ e ∈ s.registry.entries, s.registry.entryFor s.files p = .ok (some e)
            ∧ e.shared = o.shared
            ∧ ∃ last registry, s.registry.release s.files p = .ok (last, registry) := by
  have steady : Reaches (Steady FileSystem.settle) s := by
    refine reached.imp fun s e may => ?_
    cases e with
    | acquire p | openCount p => exact atHome_of_isLinkless proper may.1 may.2
    | release p => exact ⟨atHome_of_isLinkless proper may.1 may.2.1, may.2.2⟩
    | size | clear | change => trivial
  have balanced := balanced_of_reaches steady
  constructor
  · intro none
    have size := size_eq balanced
    rw [none] at size
    exact List.length_eq_zero_iff.1 size
  · intro p linkless stays o ho spelled
    obtain ⟨e, he, meant, -, shared, -⟩ :=
      release_eq balanced ho spelled (atHome_of_isLinkless proper linkless stays)
    exact ⟨e, he, meant, shared, _, _, Registry.release_of_entryFor meant⟩

/-- The container `a` is opened, and then its file is removed. The link `l` is met by none of the calls. -/
def removed : Session :=
  let s : Session := { registry := {}, files := linked }
  (s.step (.acquire ⟨utf8 "a"⟩)).step (.change dangling)

theorem paired_of_linkless_removed : ∃ last registry,
    removed.registry.release removed.files ⟨utf8 "/a"⟩ = .ok (last, registry) := by
  have present : linked.IsLinkless ⟨utf8 "a"⟩ := by
    rintro pos ⟨⟩ directory target rest ⟨⟩
  have gone : dangling.IsLinkless ⟨utf8 "/a"⟩ := by
    rintro pos ⟨⟩ directory target rest ⟨⟩
  have acquired : PairedWithoutLinks [] { registry := {}, files := linked } (.acquire ⟨utf8 "a"⟩) :=
    ⟨present, rfl⟩
  have changed (s : Session) (files : FileSystem) : PairedWithoutLinks [] s (.change files) := trivial
  have reached : Reaches (PairedWithoutLinks []) removed :=
    .step (.step (.start .little linked) acquired) (changed _ _)
  have proper : ∀ n ∈ ([] : Place), IsFileName n := by simp
  obtain ⟨-, paths⟩ := paired_of_linkless proper reached
  obtain ⟨e, -, -, -, released⟩ := paths ⟨utf8 "/a"⟩ gone rfl _ (.head _) rfl
  exact released

/-! ### With links -/

/-- Two containers `a` and `b`, and a link `l`. -/
def linkedTo (target : String) : FileSystem where
  root := .directory [(utf8 "a", .file 0), (utf8 "b", .file 1), (utf8 "l", .link ⟨utf8 target⟩)]
  contents := #[.ofBytes Archive.small, .ofBytes Archive.small]
  known := show ∀ id ∈ [0, 1], id < 2 by decide

/-- The container `a` is opened through `l` and `b` by its name, and then `l` is pointed to `b`. -/
def repointed : Session :=
  let s : Session := { registry := {}, files := linkedTo "a" }
  ((s.step (.acquire ⟨utf8 "l"⟩)).step (.acquire ⟨utf8 "b"⟩)).step (.change (linkedTo "b"))

/-- Then both are released, each under the path by which it was opened. -/
def abandoned : Session := (repointed.step (.release ⟨utf8 "l"⟩)).step (.release ⟨utf8 "b"⟩)

/-- A link that was pointed elsewhere: its release takes the opening of the other container, and when
    both openings were taken back the container first opened is still held. -/
theorem repointed_stays_open : Reaches Paired repointed
    ∧ (∃ e, repointed.registry.entryFor repointed.files ⟨utf8 "l"⟩ = .ok (some e)
        ∧ ∀ o ∈ repointed.openings, repointed.files.spelling? ⟨utf8 "l"⟩ = some o.path →
          e.shared ≠ o.shared)
    ∧ Reaches Paired abandoned ∧ abandoned.openings = [] ∧ abandoned.registry.size = 1 := by
  obtain ⟨first, second, openings, opened⟩ : ∃ first second : Opening,
      repointed.openings = [second, first]
      ∧ repointed.files.spelling? ⟨utf8 "l"⟩ = some first.path
      ∧ first.path ≠ second.path
      ∧ ∃ e, repointed.registry.entryFor repointed.files ⟨utf8 "l"⟩ = .ok (some e)
        ∧ e.shared ≠ first.shared :=
    ⟨_, _, rfl, rfl, by decide +kernel, _, rfl, by decide +kernel⟩
  obtain ⟨spelled, apart, e, meant, other⟩ := opened
  have acquired (s : Session) (p : Path) : Paired s (.acquire p) := trivial
  have reached : Reaches Paired repointed :=
    .step (e := .change (linkedTo "b"))
      (.step (.step (.start .little (linkedTo "a")) (acquired _ ⟨utf8 "l"⟩)) (acquired _ ⟨utf8 "b"⟩)) rfl
  have releasedLink : Paired repointed (.release ⟨utf8 "l"⟩) := ⟨first, by simp [openings], spelled⟩
  have releasedName : Paired (repointed.step (.release ⟨utf8 "l"⟩)) (.release ⟨utf8 "b"⟩) :=
    ⟨_, .head _, rfl⟩
  refine ⟨reached, ⟨e, meant, ?_⟩, .step (.step reached releasedLink) releasedName, rfl, rfl⟩
  intro o ho same
  rw [openings] at ho
  rcases List.mem_cons.1 ho with rfl | ho
  · exact absurd (Option.some.inj (spelled.symm.trans same)) apart
  · rwa [List.mem_singleton.1 ho]

end Session

end ResourceArchive
