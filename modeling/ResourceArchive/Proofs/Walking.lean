import ResourceArchive.FileSystem.Change
import ResourceArchive.Proofs.Path

/-! Following paths. A file system is seen as the kinds of what is at its places. When things are added
    to it, every path still leads where it led, and steps that begin at a directory go on from it,
    whatever links led there. -/

namespace ResourceArchive

/-- What something is, without what is below it. -/
inductive Kind where
  | directory
  | file (id : FileId)
  | link (target : Path)
  deriving DecidableEq

namespace Node

variable {root root' n m : Node} {place : Place}

def kind : Node → Kind
  | directory _ => .directory
  | file id => .file id
  | link target => .link target

/-- The kind of what is at a place below a node. -/
def kindAt (n : Node) (place : Place) : Option Kind := (n.at? place).map kind

theorem isDirectory_iff : n.isDirectory ↔ n.kind = .directory := by
  cases n <;> simp [isDirectory, kind]

theorem kind_eq_link {target : Path} : n.kind = .link target ↔ n = .link target := by
  cases n <;> simp [kind]

theorem kind_eq_file {id : FileId} : n.kind = .file id ↔ n = .file id := by
  cases n <;> simp [kind]

theorem at?_append (n : Node) (front back : Place) :
    n.at? (front ++ back) = (n.at? front).bind (·.at? back) := by
  induction front generalizing n with
  | nil => rfl
  | cons name front ih =>
    rw [List.cons_append, at?_cons, at?_cons]
    rcases n.child? name with _ | child
    · rfl
    · exact ih child

theorem at?_singleton (n : Node) (name : Bytes) : n.at? [name] = n.child? name := by
  rw [at?_cons]
  rcases n.child? name <;> rfl

/-- Everything stays what it is, and no link is new. -/
structure Grows (root root' : Node) : Prop where
  kept : ∀ place kind, root.kindAt place = some kind → root'.kindAt place = some kind
  no_link : ∀ place target, root'.kindAt place = some (.link target) →
    root.kindAt place = some (.link target)

theorem Grows.refl (root : Node) : Grows root root := ⟨fun _ _ h => h, fun _ _ h => h⟩

end Node

namespace Position

variable {root root' child child' : Node} {pos pos' : Position} {name : Bytes} {place : Place}

/-! ### Positions in a tree -/

/-- Directories around a node that are those of a tree. -/
def Around (root : Node) : Node → List (Bytes × Node) → Prop
  | node, [] => node = root
  | node, (name, directory) :: above => directory.child? name = some node ∧ Around root directory above

/-- A position that is in a tree. -/
def IsIn (pos : Position) (root : Node) : Prop := Around root pos.node pos.above

theorem place_down : (pos.down name child).place = pos.place ++ [name] := by
  simp [place, down]

theorem at?_of_around {node : Node} {above : List (Bytes × Node)} (h : Around root node above) :
    root.at? (above.map Prod.fst).reverse = some node := by
  induction above generalizing node with
  | nil =>
    rw [show node = root from h]
    rfl
  | cons first above ih =>
    obtain ⟨name, directory⟩ := first
    rw [List.map_cons, List.reverse_cons, Node.at?_append, ih h.2, Option.bind_some,
      Node.at?_singleton, h.1]

theorem IsIn.at? (h : pos.IsIn root) : root.at? pos.place = some pos.node := at?_of_around h

theorem IsIn.kindAt (h : pos.IsIn root) : root.kindAt pos.place = some pos.node.kind := by
  rw [Node.kindAt, h.at?, Option.map_some]

theorem IsIn.kindAt_name (h : pos.IsIn root) (name : Bytes) :
    root.kindAt (pos.place ++ [name]) = (pos.node.child? name).map Node.kind := by
  rw [Node.kindAt, Node.at?_append, h.at?, Option.bind_some, Node.at?_singleton]

theorem isIn_root (root : Node) : IsIn { node := root } root := rfl

theorem IsIn.down (h : pos.IsIn root) (held : pos.node.child? name = some child) :
    (pos.down name child).IsIn root := ⟨held, h⟩

theorem IsIn.up (h : pos.IsIn root) : pos.up.IsIn root := by
  rw [Position.up]
  split
  · exact h
  · exact h
  · next above _ eq =>
    rw [IsIn, eq] at h
    exact h.2

theorem place_up (kept : pos.removed = 0) : pos.up.place = pos.place.dropLast := by
  obtain ⟨node, above, removed⟩ := pos
  obtain rfl : removed = 0 := kept
  rcases above with _ | ⟨first, above⟩
  · rfl
  · simp [Position.up, place]

theorem removed_up (kept : pos.removed = 0) : pos.up.removed = 0 := by
  obtain ⟨node, above, removed⟩ := pos
  obtain rfl : removed = 0 := kept
  rcases above with _ | ⟨first, above⟩ <;> rfl

theorem IsIn.descend (h : pos.IsIn root) (kept : pos.removed = 0)
    (led : pos.descend place = some pos') :
    pos'.IsIn root ∧ pos'.place = pos.place ++ place ∧ pos'.removed = 0 := by
  induction place generalizing pos with
  | nil =>
    cases led
    exact ⟨h, by simp, kept⟩
  | cons name rest ih =>
    rw [Position.descend] at led
    split at led
    · next child held =>
      obtain ⟨isIn, there, removed⟩ := ih (h.down held) rfl led
      exact ⟨isIn, by rw [there, place_down, List.append_assoc, List.singleton_append], removed⟩
    · cases led

/-! ### The same position in two trees -/

/-- Positions of the same place in two trees. -/
structure Alike (root root' : Node) (pos pos' : Position) : Prop where
  isIn : pos.IsIn root
  isIn' : pos'.IsIn root'
  place_eq : pos'.place = pos.place
  removed_eq : pos'.removed = pos.removed

namespace Alike

theorem kind_eq (alike : Alike root root' pos pos') (grows : root.Grows root') :
    pos'.node.kind = pos.node.kind := by
  have kept := grows.kept _ _ alike.isIn.kindAt
  rw [← alike.place_eq, alike.isIn'.kindAt] at kept
  exact Option.some.inj kept

theorem isDirectory_eq (alike : Alike root root' pos pos') (grows : root.Grows root') :
    pos'.node.isDirectory = pos.node.isDirectory := by
  rw [Bool.eq_iff_iff, Node.isDirectory_iff, Node.isDirectory_iff, alike.kind_eq grows]

/-- What has a name at the one position has it at the other. -/
theorem child? (alike : Alike root root' pos pos') (grows : root.Grows root')
    (held : pos.node.child? name = some child) :
    ∃ child', pos'.node.child? name = some child' ∧ child'.kind = child.kind := by
  have kept := grows.kept (pos.place ++ [name]) child.kind
    (by rw [alike.isIn.kindAt_name, held, Option.map_some])
  rw [← alike.place_eq, alike.isIn'.kindAt_name, Option.map_eq_some_iff] at kept
  exact kept

theorem down (alike : Alike root root' pos pos') (held : pos.node.child? name = some child)
    (held' : pos'.node.child? name = some child') :
    Alike root root' (pos.down name child) (pos'.down name child') where
  isIn := alike.isIn.down held
  isIn' := alike.isIn'.down held'
  place_eq := by rw [place_down, place_down, alike.place_eq]
  removed_eq := rfl

theorem up (alike : Alike root root' pos pos') : Alike root root' pos.up pos'.up where
  isIn := alike.isIn.up
  isIn' := alike.isIn'.up
  place_eq := by
    rcases Nat.eq_zero_or_pos pos.removed with kept | gone
    · rw [place_up kept, place_up (alike.removed_eq.trans kept), alike.place_eq]
    · obtain ⟨n, eq⟩ := Nat.exists_eq_succ_of_ne_zero (Nat.ne_of_gt gone)
      have eq' := alike.removed_eq.trans eq
      have same := alike.place_eq
      simp only [Position.up, eq, eq']
      exact same
  removed_eq := by
    have eq := alike.removed_eq
    have same := congrArg List.length alike.place_eq
    simp only [place, List.length_reverse, List.length_map] at same
    obtain ⟨node, above, removed⟩ := pos
    obtain ⟨node', above', removed'⟩ := pos'
    obtain rfl : removed' = removed := eq
    rcases removed' with _ | n
    · rcases above with _ | ⟨first, above⟩ <;> rcases above' with _ | ⟨first', above'⟩
      · rfl
      · cases same
      · cases same
      · rfl
    · rfl

theorem atRoot (root root' : Node) : Alike root root' { node := root } { node := root' } where
  isIn := isIn_root root
  isIn' := isIn_root root'
  place_eq := rfl
  removed_eq := rfl

theorem refl (isIn : pos.IsIn root) : Alike root root pos pos := ⟨isIn, isIn, rfl, rfl⟩

theorem descend {q : Position} (alike : Alike root root' pos pos') (grows : root.Grows root')
    (led : pos.descend place = some q) :
    ∃ q', pos'.descend place = some q' ∧ Alike root root' q q' := by
  induction place generalizing pos pos' with
  | nil =>
    cases led
    exact ⟨pos', rfl, alike⟩
  | cons name rest ih =>
    rw [Position.descend] at led
    split at led
    · next child held =>
      obtain ⟨child', held', -⟩ := alike.child? grows held
      rw [Position.descend, held']
      exact ih (alike.down held held') led
    · cases led

end Alike

end Position

namespace FileSystem

open ResourceArchive.Path (Step)

variable {root root' : Node} {pos pos' q : Position} {purpose : Purpose} {step : Step}
  {steps head tail rest : List Step} {links : Nat} {fs fs' : FileSystem} {name : Bytes}
  {place : Place} {names : List Bytes} {r : Stretch} {target : Target} {p : Path}

/-! ### Stretches -/

/-- Only for a canonical path does the length of a place count. -/
theorem child?_eq (h : purpose ≠ .canonical) (pos : Position) (name : Bytes) (rest : List Step) :
    child? purpose pos name rest =
      if pos.removed ≠ 0 then .error .noSuchFile
      else if nameLimit < name.length then .error .nameTooLong
      else .ok (pos.node.child? name) := by
  have short (more : Nat) : isOverlong purpose pos more = false := by simp [isOverlong, h]
  have unclaimed : isOverlongClaim purpose pos name rest = false := by
    rw [isOverlongClaim, short, Bool.false_and]
  rw [child?, short, unclaimed, if_neg Bool.false_ne_true]
  split
  · rfl
  · split
    · rfl
    · split
      · next found => rw [found]
      · rw [if_neg Bool.false_ne_true]

theorem isDirectory_of_stretch (h : stretch purpose pos (step :: rest) = .ok r) :
    pos.node.isDirectory := by
  by_contra other
  cases step <;>
  · rw [stretch, eq_false_of_ne_true other] at h
    cases h

theorem stretch_stay (directory : pos.node.isDirectory) (stay : step = .here ∨ step = .slash) :
    stretch purpose pos (step :: rest) = stretch purpose pos rest := by
  rcases stay with rfl | rfl
  · rw [stretch, directory]
    rfl
  · rw [stretch, directory]
    rfl

theorem stretch_up (directory : pos.node.isDirectory) :
    stretch purpose pos (.up :: rest) = stretch purpose pos.up rest := by
  rw [stretch, directory]
  rfl

/-- Where a name leads, with steps after it. -/
theorem stretch_name (h : purpose ≠ .canonical) (directory : pos.node.isDirectory)
    (kept : pos.removed = 0) (short : name.length ≤ nameLimit)
    (claims : ¬(purpose = .write ∧ rest = [.slash])) :
    stretch purpose pos (.name name :: rest) =
      match pos.node.child? name with
      | none => if rest = [] then .ok (.done (.vacant (pos.place ++ [name]))) else .error .noSuchFile
      | some (.link target) =>
        if rest = [] ∧ purpose = .lookAtLink then
          .ok (.done (.present (pos.down name (.link target))))
        else .ok (.link pos target rest)
      | some child => stretch purpose (pos.down name child) rest := by
  rw [stretch, directory, if_neg (by decide)]
  simp only [if_neg claims, child?_eq h, kept, ne_eq, not_true_eq_false, if_false,
    if_neg (Nat.not_lt.2 short)]
  split <;> simp_all

/-- What it takes for a name to lead anywhere. -/
theorem name_of_stretch (h : purpose ≠ .canonical)
    (led : stretch purpose pos (.name name :: rest) = .ok r) :
    pos.removed = 0 ∧ name.length ≤ nameLimit ∧ ¬(purpose = .write ∧ rest = [.slash]) := by
  rw [stretch, isDirectory_of_stretch led, if_neg (by decide)] at led
  split at led
  · cases led
  · next claims =>
    have looked : ∃ found, child? purpose pos name rest = .ok found := by
      rcases looked : child? purpose pos name rest with e | found
      · rw [looked] at led
        cases led
      · exact ⟨found, rfl⟩
    obtain ⟨found, looked⟩ := looked
    rw [child?_eq h] at looked
    split at looked
    · cases looked
    · next kept =>
      split at looked
      · cases looked
      · next short => exact ⟨Decidable.not_not.1 kept, Nat.not_lt.1 short, claims⟩

/-! ### Growth -/

/-- Where a path leads in two trees, of which one has grown out of the other. -/
inductive Target.Grown (root root' : Node) : Target → Target → Prop where
  | present {pos pos' : Position} (alike : pos.Alike root root' pos') :
      Grown root root' (.present pos) (.present pos')
  | vacant {place : Place} {name : Bytes} (above : root.kindAt place = some .directory)
      (before : root.kindAt (place ++ [name]) = none) (after : root'.kindAt (place ++ [name]) = none) :
      Grown root root' (.vacant (place ++ [name])) (.vacant (place ++ [name]))
  | filled {place : Place} {name : Bytes} {pos : Position} (above : root.kindAt place = some .directory)
      (before : root.kindAt (place ++ [name]) = none) (isIn : pos.IsIn root')
      (there : pos.place = place ++ [name]) (kept : pos.removed = 0) :
      Grown root root' (.vacant (place ++ [name])) (.present pos)

inductive Stretch.Grown (root root' : Node) : Stretch → Stretch → Prop where
  | done {target target' : Target} (grown : target.Grown root root' target') :
      Grown root root' (.done target) (.done target')
  | link {pos pos' : Position} (alike : pos.Alike root root' pos') (target : Path) (rest : List Step) :
      Grown root root' (.link pos target rest) (.link pos' target rest)

/-- A name that was missing at the end of a path is missing still, or something was made there that is no
    link. -/
theorem stretch_grows_missing (h : purpose ≠ .canonical) (grows : root.Grows root')
    (alike : pos.Alike root root' pos') (directory : pos.node.isDirectory) (kept : pos.removed = 0)
    (short : name.length ≤ nameLimit) (claims : ¬(purpose = .write ∧ ([] : List Step) = [.slash]))
    (missing : pos.node.child? name = none) :
    ∃ r', stretch purpose pos' [.name name] = .ok r'
      ∧ (Stretch.done (.vacant (pos.place ++ [name]))).Grown root root' r' := by
  have directory' : pos'.node.isDirectory := (alike.isDirectory_eq grows).trans directory
  have above : root.kindAt pos.place = some .directory := by
    rw [alike.isIn.kindAt, Node.isDirectory_iff.1 directory]
  have before : root.kindAt (pos.place ++ [name]) = none := by
    rw [alike.isIn.kindAt_name, missing, Option.map_none]
  rw [stretch_name h directory' (alike.removed_eq.trans kept) short claims]
  rcases held' : pos'.node.child? name with _ | child'
  · refine ⟨_, if_pos rfl, .done ?_⟩
    rw [alike.place_eq]
    refine .vacant above before ?_
    rw [← alike.place_eq, alike.isIn'.kindAt_name, held', Option.map_none]
  · have there : root'.kindAt (pos.place ++ [name]) = some child'.kind := by
      rw [← alike.place_eq, alike.isIn'.kindAt_name, held', Option.map_some]
    cases child' with
    | link target =>
      have old := grows.no_link _ _ there
      rw [before] at old
      cases old
    | _ =>
      refine ⟨_, rfl, .done (.filled above before (alike.isIn'.down held') ?_ rfl)⟩
      rw [Position.place_down, alike.place_eq]

theorem stretch_grows (h : purpose ≠ .canonical) (grows : root.Grows root')
    (alike : pos.Alike root root' pos') (led : stretch purpose pos steps = .ok r) :
    ∃ r', stretch purpose pos' steps = .ok r' ∧ r.Grown root root' r' := by
  induction steps generalizing pos pos' with
  | nil =>
    cases led
    exact ⟨_, rfl, .done (.present alike)⟩
  | cons step rest ih =>
    have directory := isDirectory_of_stretch led
    have directory' : pos'.node.isDirectory := (alike.isDirectory_eq grows).trans directory
    cases step with
    | here | slash =>
      rw [stretch_stay directory (by simp)] at led
      rw [stretch_stay directory' (by simp)]
      exact ih alike led
    | up =>
      rw [stretch_up directory] at led
      rw [stretch_up directory']
      exact ih alike.up led
    | name name =>
      obtain ⟨kept, short, claims⟩ := name_of_stretch h led
      rw [stretch_name h directory kept short claims] at led
      rw [stretch_name h directory' (alike.removed_eq.trans kept) short claims]
      rcases held : pos.node.child? name with _ | child
      · rw [held] at led
        simp only at led
        split at led
        · next last =>
          cases led
          subst last
          have grown := stretch_grows_missing h grows alike directory kept short claims held
          rwa [stretch_name h directory' (alike.removed_eq.trans kept) short claims] at grown
        · cases led
      · rw [held] at led
        obtain ⟨child', held', same⟩ := alike.child? grows held
        rw [held']
        cases child with
        | link target =>
          rw [show Node.kind (.link target) = .link target from rfl, Node.kind_eq_link] at same
          subst same
          simp only at led ⊢
          split at led
          · next last =>
            cases led
            exact ⟨_, if_pos last, .done (.present (alike.down held held'))⟩
          · next onward =>
            cases led
            exact ⟨_, if_neg onward, .link alike target rest⟩
        | directory | file =>
          cases child' with
          | link => cases same
          | _ => exact ih (alike.down held held') led

/-- Where a path led, it leads when the tree has grown. -/
theorem walk_grows (h : purpose ≠ .canonical) (grows : fs.root.Grows fs'.root)
    (alike : pos.Alike fs.root fs'.root pos') (led : fs.walk purpose links pos steps = .ok target) :
    ∃ target', fs'.walk purpose links pos' steps = .ok target'
      ∧ target.Grown fs.root fs'.root target' := by
  -- A stretch without a link ends the walk for any number of links, so that one case holds for all numbers.
  induction links using Nat.strongRecOn generalizing pos pos' steps with
  | ind links ih =>
    rw [walk] at led ⊢
    rcases stretched : stretch purpose pos steps with e | r
    · rw [stretched] at led
      cases led
    obtain ⟨r', stretched', grown⟩ := stretch_grows h grows alike stretched
    rw [stretched] at led
    rw [stretched']
    cases grown with
    | done grown =>
      cases led
      exact ⟨_, rfl, grown⟩
    | link alike linked rest =>
      rcases links with _ | links
      · cases led
      refine ih links (Nat.lt_succ_self links) ?_ led
      split
      · exact .atRoot _ _
      · exact alike

/-- A place where something could be is free, and in a directory. -/
theorem vacant_of_walk (h : purpose ≠ .canonical) (isIn : pos.IsIn fs.root)
    (led : fs.walk purpose links pos steps = .ok (.vacant place)) :
    ∃ above name, place = above ++ [name] ∧ fs.root.kindAt above = some .directory
      ∧ fs.root.kindAt place = none := by
  obtain ⟨_, -, grown⟩ := walk_grows h (.refl fs.root) (.refl isIn) led
  cases grown with
  | vacant above before | filled above before => exact ⟨_, _, rfl, above, before⟩

/-! ### Looking -/

/-- What is found in a stretch for another purpose, and is no link, is found by looking for it. -/
theorem stretch_look (h : purpose ≠ .canonical) (led : stretch purpose pos steps = .ok r)
    (noLink : ∀ q target, r = .done (.present q) → q.node ≠ .link target) :
    stretch .look pos steps = .ok r := by
  induction steps generalizing pos with
  | nil => exact led
  | cons step rest ih =>
    have directory := isDirectory_of_stretch led
    cases step with
    | here | slash =>
      rw [stretch_stay directory (by simp)] at led ⊢
      exact ih led
    | up =>
      rw [stretch_up directory] at led ⊢
      exact ih led
    | name name =>
      obtain ⟨kept, short, claims⟩ := name_of_stretch h led
      rw [stretch_name h directory kept short claims] at led
      rw [stretch_name (by decide) directory kept short (by simp)]
      rcases held : pos.node.child? name with _ | ⟨entries⟩ | ⟨id⟩ | ⟨target⟩
      · rw [held] at led
        exact led
      · rw [held] at led
        exact ih led
      · rw [held] at led
        exact ih led
      · rw [held] at led
        simp only at led
        split at led
        · cases led
          exact absurd rfl (noLink _ target rfl)
        · simpa using led

theorem walk_look (h : purpose ≠ .canonical) (led : fs.walk purpose links pos steps = .ok target)
    (noLink : ∀ q link, target = .present q → q.node ≠ .link link) :
    fs.walk .look links pos steps = .ok target := by
  induction links using Nat.strongRecOn generalizing pos steps with
  | ind links ih =>
    rw [walk] at led ⊢
    rcases stretched : stretch purpose pos steps with e | r
    · rw [stretched] at led
      cases led
    rw [stretched] at led
    rcases r with target | ⟨directory, linked, rest⟩
    · cases led
      rw [stretch_look h stretched fun q link found => noLink q link (by cases found; rfl)]
    · rw [stretch_look h stretched fun q link found => by cases found]
      rcases links with _ | links
      · cases led
      exact ih links (Nat.lt_succ_self links) led

theorem walk_look_present (h : purpose ≠ .canonical)
    (led : fs.walk purpose links pos steps = .ok (.present q)) (noLink : ∀ link, q.node ≠ .link link) :
    fs.walk .look links pos steps = .ok (.present q) := by
  refine walk_look h led ?_
  rintro _ link found
  cases found
  exact noLink link

/-! ### Going on -/

/-- What a stretch comes to with further steps after it. -/
def Stretch.goOn (purpose : Purpose) (tail : List Step) : Stretch → Except SystemError Stretch
  | .done (.present pos) => stretch purpose pos tail
  | .done (.vacant _) => .error .noSuchFile
  | .link directory target rest => .ok (.link directory target (rest ++ tail))

/-- Steps before others do not end in a slash, where those do not. -/
theorem not_claims_append (some : tail ≠ []) (unclosed : purpose = .write → tail ≠ [.slash])
    (rest : List Step) : ¬(purpose = .write ∧ rest ++ tail = [.slash]) := by
  rintro ⟨writes, closed⟩
  rcases rest with _ | ⟨first, rest⟩
  · exact unclosed writes closed
  · simp [some] at closed

theorem stretch_append (h : purpose ≠ .canonical) (some : tail ≠ [])
    (unclosed : purpose = .write → tail ≠ [.slash]) (led : stretch .look pos head = .ok r) :
    stretch purpose pos (head ++ tail) = r.goOn purpose tail := by
  induction head generalizing pos with
  | nil =>
    cases led
    rfl
  | cons step rest ih =>
    have directory := isDirectory_of_stretch led
    rw [List.cons_append]
    cases step with
    | here | slash =>
      rw [stretch_stay directory (by simp)] at led
      rw [stretch_stay directory (by simp)]
      exact ih led
    | up =>
      rw [stretch_up directory] at led
      rw [stretch_up directory]
      exact ih led
    | name name =>
      obtain ⟨kept, short, -⟩ := name_of_stretch (by decide) led
      rw [stretch_name (by decide) directory kept short (by simp)] at led
      rw [stretch_name h directory kept short (not_claims_append some unclosed rest)]
      rcases held : pos.node.child? name with _ | ⟨entries⟩ | ⟨id⟩ | ⟨target⟩
      · rw [held] at led
        simp only at led
        split at led
        · cases led
          simp [some, Stretch.goOn]
        · cases led
      · rw [held] at led
        exact ih led
      · rw [held] at led
        exact ih led
      · rw [held] at led
        simp only [reduceCtorEq, and_false, if_false] at led
        cases led
        simp [some, Stretch.goOn]

/-- Steps that follow those to a directory go on from there. -/
theorem walk_append (h : purpose ≠ .canonical) (some : tail ≠ [])
    (unclosed : purpose = .write → tail ≠ [.slash])
    (led : fs.walk .look links pos head = .ok (.present q)) :
    ∃ left, fs.walk purpose links pos (head ++ tail) = fs.walk purpose left q tail := by
  induction links using Nat.strongRecOn generalizing pos head with
  | ind links ih =>
    rw [walk] at led
    rcases stretched : stretch .look pos head with e | r
    · rw [stretched] at led
      cases led
    rw [stretched] at led
    have onward := stretch_append h some unclosed stretched
    rcases r with target | ⟨directory, target, rest⟩
    · cases led
      exact ⟨links, by rw [walk, walk, onward, Stretch.goOn]⟩
    · rcases links with _ | links
      · cases led
      obtain ⟨left, same⟩ := ih links (Nat.lt_succ_self links) led
      refine ⟨left, ?_⟩
      rw [walk, onward, Stretch.goOn, ← same]
      simp only [List.append_assoc]

end FileSystem

end ResourceArchive
