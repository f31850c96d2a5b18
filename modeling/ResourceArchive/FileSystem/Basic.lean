import ResourceArchive.Content
import ResourceArchive.Error
import ResourceArchive.FileSystem.Node

/-! A file system: directories, files and symbolic links in one tree. A file's content is kept apart
    from its place in the tree, so that it can be read by whoever has opened the file when the place is
    gone or taken by another file. -/

namespace ResourceArchive

/-- Where relative paths begin: at a place, or so many levels below it in directories that were removed
    while in use. A removed directory is empty and stays so; the way up from it is to the one it was
    in. -/
structure WorkingDirectory where
  place : Place := []
  removed : Nat := 0
  deriving DecidableEq, Repr

structure FileSystem where
  root : Node := .empty
  /-- The content of each file ever made. -/
  contents : Array Content := #[]
  workingDirectory : WorkingDirectory := {}
  /-- Each file in the tree has a content. -/
  known : ∀ id ∈ root.fileIds, id < contents.size := by decide

/-- How far a path was followed. -/
structure Position where
  /-- What is there. -/
  node : Node
  /-- The directories it is in, the nearest first, each with the name that leads down from it. -/
  above : List (Bytes × Node) := []
  /-- How many levels below it, in directories that were removed. -/
  removed : Nat := 0

namespace Position

def place (pos : Position) : Place := (pos.above.map Prod.fst).reverse

/-- Number of bytes of the path of the place; none for the root. -/
def pathLength (pos : Position) : Nat := pos.above.foldl (fun n (name, _) => n + 1 + name.length) 0

/-- One level down. -/
def down (pos : Position) (name : Bytes) (child : Node) : Position where
  node := child
  above := (name, pos.node) :: pos.above

/-- One level up. -/
def up (pos : Position) : Position :=
  match pos.removed, pos.above with
  | n + 1, _ => { pos with removed := n }
  | 0, [] => pos
  | 0, (_, directory) :: above => { node := directory, above := above }

/-- Down to a place. -/
def descend (pos : Position) : Place → Option Position
  | [] => some pos
  | name :: rest =>
    match pos.node.child? name with
    | some child => (pos.down name child).descend rest
    | none => none

end Position

namespace FileSystem

/-- What is at a place. -/
def node? (fs : FileSystem) (place : Place) : Option Node := fs.root.at? place

/-- The content of a file. -/
def content (fs : FileSystem) (id : FileId) : Content := fs.contents[id]?.getD {}

/-! Following paths -/

/-- Where a path leads. -/
inductive Target where
  /-- To something that is there. -/
  | present (pos : Position)
  /-- To a directory that has nothing of the last name. -/
  | vacant (place : Place)

/-- What a path is followed for. -/
inductive Purpose where
  /-- To find what is there. -/
  | look
  /-- To find what is there, be it a link. -/
  | lookAtLink
  /-- To write a file, which cannot be where a path ends in a slash. -/
  | write
  /-- To find the place of what is there. Each name is looked up by its own path from the root. -/
  | canonical
  deriving DecidableEq, Repr

/-- Number of links that are followed on one path. -/
def linkLimit : Nat := 40

/-- Length of the longest name that something can have. -/
def nameLimit : Nat := 255

/-- Length of the longest path that is looked up. -/
def pathLimit : Nat := 4095

/-- Whether a path from the root, so many bytes longer than that of a position, is looked up in
    vain. -/
def isOverlong (purpose : Purpose) (pos : Position) (more : Nat) : Bool :=
  purpose = .canonical && pathLimit < pos.pathLength + more

/-- The steps from the first one on that does not stay. -/
def onward (steps : List Path.Step) : List Path.Step :=
  steps.dropWhile fun step => step = .here ∨ step = .slash

/-- Whether the steps after a name claim a directory there, before they go on to another name. -/
def claimDirectory (steps : List Path.Step) : Bool :=
  match onward steps with
  | [] => steps ≠ []
  | .name _ :: _ => false
  | _ => true

/-- Whether a name is looked up in vain as a directory that the steps after it claim: the path of a
    directory is one slash longer. -/
def isOverlongClaim (purpose : Purpose) (pos : Position) (name : Bytes) (rest : List Path.Step) :
    Bool :=
  isOverlong purpose pos (1 + name.length + 1) && claimDirectory rest

/-- What has a name in the directory at a position, where steps follow the name. -/
def child? (purpose : Purpose) (pos : Position) (name : Bytes) (rest : List Path.Step) :
    Except SystemError (Option Node) :=
  if isOverlong purpose pos (1 + name.length) then .error .nameTooLong
  else if pos.removed ≠ 0 then .error .noSuchFile
  else if nameLimit < name.length then .error .nameTooLong
  else match pos.node.child? name with
    | some (.link target) => .ok (some (.link target))
    | found => if isOverlongClaim purpose pos name rest then .error .nameTooLong else .ok found

/-- Why steps lead nowhere from what is no directory. -/
def obstacle (purpose : Purpose) (pos : Position) (steps : List Path.Step) : SystemError :=
  match onward steps with
  | .name name :: rest =>
    if isOverlong purpose pos (1 + name.length) || isOverlongClaim purpose pos name rest then
      .nameTooLong
    else .notADirectory
  | _ => .notADirectory

/-- A stretch of a walk: to where the path leads, or to a link, with the directory it is in and the
    steps after it. -/
inductive Stretch where
  | done (target : Target)
  | link (directory : Position) (target : Path) (rest : List Path.Step)

/-- Follows steps from a position up to a link. -/
def stretch (purpose : Purpose) (pos : Position) : List Path.Step → Except SystemError Stretch
  | [] => .ok (.done (.present pos))
  | step :: rest =>
    if !pos.node.isDirectory then .error (obstacle purpose pos (step :: rest))
    else match step with
      | .here | .slash => stretch purpose pos rest
      | .up => stretch purpose pos.up rest
      | .name n =>
        if purpose = .write ∧ rest = [.slash] then .error .isADirectory
        else match child? purpose pos n rest with
          | .error e => .error e
          | .ok none =>
            if rest = [] then .ok (.done (.vacant (pos.place ++ [n]))) else .error .noSuchFile
          | .ok (some (.link target)) =>
            if rest = [] ∧ purpose = .lookAtLink then
              .ok (.done (.present (pos.down n (.link target))))
            else .ok (.link pos target rest)
          | .ok (some child) => stretch purpose (pos.down n child) rest

/-- Follows steps from a position, through at most `links` links. -/
def walk (fs : FileSystem) (purpose : Purpose) (links : Nat) (pos : Position)
    (steps : List Path.Step) : Except SystemError Target :=
  match stretch purpose pos steps with
  | .error e => .error e
  | .ok (.done target) => .ok target
  | .ok (.link directory target rest) =>
    match links with
    | 0 => .error .tooManyLinks
    | links + 1 =>
      let pos := if target.isAbsolute then { node := fs.root } else directory
      fs.walk purpose links pos (target.steps ++ rest)

/-- Where a path begins. -/
def start (fs : FileSystem) (p : Path) : Except SystemError Position :=
  let root : Position := { node := fs.root }
  if p.bytes.contains 0 then .error .zeroInPath
  else if p.bytes = [] then .error .noSuchFile
  else if p.isAbsolute then .ok root
  else match root.descend fs.workingDirectory.place with
    | some pos => .ok { pos with removed := fs.workingDirectory.removed }
    | none => .error .noSuchFile

/-- Follows some of a path's steps. -/
def followSteps (fs : FileSystem) (purpose : Purpose) (p : Path) (steps : List Path.Step) :
    Except SystemError Target :=
  match fs.start p with
  | .error e => .error e
  | .ok pos =>
    if pathLimit < p.bytes.length then .error .nameTooLong
    else fs.walk purpose linkLimit pos steps

/-- Follows a path. -/
def resolve (fs : FileSystem) (purpose : Purpose) (p : Path) : Except SystemError Target :=
  fs.followSteps purpose p p.steps

/-- Follows a path to what is to be made at its end, where a trailing slash claims nothing. -/
def resolveNew (fs : FileSystem) (p : Path) : Except SystemError Target :=
  fs.followSteps .lookAtLink p p.baseSteps

/-- Follows a path to its end, where something has to be. -/
def locate (fs : FileSystem) (purpose : Purpose) (p : Path) : Except SystemError Position :=
  match fs.resolve purpose p with
  | .ok (.present pos) => .ok pos
  | .ok (.vacant _) => .error .noSuchFile
  | .error e => .error e

/-- The place at which a path ends, where something has to be. It is found from the root, a name at a
    time: the path itself may be of any length, and begins nowhere if the directory it begins at was
    removed. -/
def canonicalize (fs : FileSystem) (p : Path) : Except SystemError Place :=
  match fs.start p with
  | .error e => .error e
  | .ok pos =>
    if pos.removed ≠ 0 then .error .noSuchFile
    else match fs.walk .canonical linkLimit pos p.steps with
      | .ok (.present pos) => .ok pos.place
      | .ok (.vacant _) => .error .noSuchFile
      | .error e => .error e

/-- The path of a place. -/
def pathOf (place : Place) : Path := ⟨Path.slash :: (Path.ofNames place).bytes⟩

/-- A path made absolute without looking at what is there. -/
def absolute (fs : FileSystem) (p : Path) : Except SystemError Path :=
  if p.isAbsolute then .ok p
  else if fs.workingDirectory.removed ≠ 0 then .error .noSuchFile
  else .ok ((pathOf fs.workingDirectory.place).join p)

/-- Whether a path leads to a directory. -/
def isDirectory (fs : FileSystem) (p : Path) : Bool :=
  match fs.locate .look p with
  | .ok pos => pos.node.isDirectory
  | .error _ => false

/-! Reading -/

/-- The file to which a path leads. -/
def fileAt (fs : FileSystem) (p : Path) : Except SystemError FileId := do
  match (← fs.locate .look p).node with
  | .file id => return id
  | .directory _ => throw .isADirectory
  | .link _ => throw .tooManyLinks

/-- The content of the file to which a path leads. -/
def read (fs : FileSystem) (p : Path) : Except SystemError Content := fs.content <$> fs.fileAt p

/-- Something that a walk through directories meets: the path of what is no directory, or a directory
    that cannot be read. -/
abbrev Sighting := Except (Path × SystemError) Path

mutual

/-- What a walk meets besides directories at a node with this path and below it, in the order of the
    names. A link is met, not entered. -/
def sightings (path : Path) : Node → List Sighting
  | .directory entries =>
    if pathLimit < path.bytes.length then [.error (path, .nameTooLong)]
    else entrySightings path entries
  | _ => [.ok path]
termination_by structural n => n

/-- What a walk meets through some entries of a directory. -/
def entrySightings (path : Path) : List (Bytes × Node) → List Sighting
  | [] => []
  | (name, child) :: rest => sightings (path.join ⟨name⟩) child ++ entrySightings path rest
termination_by structural entries => entries

end

/-- What a walk from a directory meets below it. -/
def below (root : Path) (pos : Position) : List Sighting :=
  if pos.removed = 0 then sightings root pos.node else []

/-- What a walk from a path meets. A link at which it begins is met and entered. -/
def files (fs : FileSystem) (root : Path) : List Sighting :=
  match fs.locate .lookAtLink root with
  | .error e => [.error (root, e)]
  | .ok pos =>
    match pos.node with
    | .link _ =>
      match fs.locate .look root with
      | .error e => [.error (root, e)]
      | .ok target => .ok root :: if target.node.isDirectory then below root target else []
    | _ => below root pos

end FileSystem

end ResourceArchive
