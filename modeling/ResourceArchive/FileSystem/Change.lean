import ResourceArchive.FileSystem.Basic

/-! Changes to a file system. A change that fails makes no new file system, so that the one before it
    stays as it was. -/

namespace ResourceArchive.FileSystem

/-- Puts something at a place. -/
def put (fs : FileSystem) (place : Place) (node : Node)
    (known : ∀ id ∈ node.fileIds, id < fs.contents.size := by simp) : FileSystem :=
  { fs with
    root := fs.root.put place node
    known id hid := (Node.mem_fileIds_put hid).elim (fs.known id) (known id) }

/-- Where someone is who stays while what is at a place, and all below it, is taken away. -/
def leftBehind (place : Place) (cwd : WorkingDirectory) : WorkingDirectory :=
  match place.isPrefixOf? cwd.place with
  | some rest => { place := place.dropLast, removed := rest.length + 1 + cwd.removed }
  | none => cwd

/-- Takes away what is at a place, and all below it. -/
def drop (fs : FileSystem) (place : Place) : FileSystem :=
  { fs with
    root := fs.root.erase place
    workingDirectory := leftBehind place fs.workingDirectory
    known id hid := fs.known id (Node.fileIds_erase _ _ hid) }

/-- Gives a file new content. -/
def setContent (fs : FileSystem) (id : FileId) (content : Content) : FileSystem :=
  { fs with
    contents := fs.contents.setIfInBounds id content
    known := by simpa using fs.known }

/-- Makes a file at a place. -/
def addFile (fs : FileSystem) (place : Place) (content : Content) : FileSystem :=
  { fs with
    root := fs.root.put place (.file fs.contents.size)
    contents := fs.contents.push content
    known id hid := by
      rw [Array.size_push]
      rcases Node.mem_fileIds_put hid with old | new
      · exact Nat.lt_succ_of_lt (fs.known id old)
      · exact Nat.lt_succ_of_le (Nat.le_of_eq (List.mem_singleton.1 new)) }

/-- Writes a file: in place if there is one, else as a new file. -/
def write (fs : FileSystem) (p : Path) (content : Content) : Except SystemError FileSystem := do
  match ← fs.resolve .write p with
  | .vacant place => return fs.addFile place content
  | .present pos =>
    match pos.node with
    | .file id => return fs.setContent id content
    | _ => throw .isADirectory

/-- Cuts a file off at a length, or fills it up with zeros. -/
def truncate (fs : FileSystem) (p : Path) (length : Nat) : Except SystemError FileSystem := do
  let id ← fs.fileAt p
  return fs.setContent id ((fs.content id).resize length)

/-- Makes a directory in one that is there. -/
def createDirectory (fs : FileSystem) (p : Path) : Except SystemError FileSystem := do
  match ← fs.resolveNew p with
  | .vacant place => return fs.put place .empty
  | .present _ => throw .fileExists

/-- Makes a link. -/
def link (fs : FileSystem) (target p : Path) : Except SystemError FileSystem := do
  match ← fs.resolveNew p with
  | .vacant place => return fs.put place (.link target)
  | .present _ => throw .fileExists

/-- Removes a file, a link, or a directory with all it holds. -/
def remove (fs : FileSystem) (p : Path) : Except SystemError FileSystem := do
  let pos ← fs.locate .lookAtLink p
  if pos.removed = 0 then return fs.drop pos.place else throw .noSuchFile

/-- Where someone is who stays while what is at a place is given another one. -/
def takenAlong (old new : Place) (cwd : WorkingDirectory) : WorkingDirectory :=
  match old.isPrefixOf? cwd.place with
  | some rest => { cwd with place := new ++ rest }
  | none => cwd

/-- Gives what is at a place another place; what was there is gone. -/
def move (fs : FileSystem) (old new : Place) : FileSystem :=
  match held : fs.node? old with
  | none => fs
  | some node =>
    if old = new then fs
    else
      let left := fs.drop new
      { left with
        root := (left.root.erase old).put new node
        workingDirectory := takenAlong old new left.workingDirectory
        known id hid := by
          rcases Node.mem_fileIds_put hid with rest | moved
          · exact left.known id (Node.fileIds_erase _ _ rest)
          · exact fs.known id (Node.fileIds_at? held moved) }

/-- Gives something another place. -/
def rename (fs : FileSystem) (p q : Path) : Except SystemError FileSystem := do
  let old ← fs.locate .lookAtLink p
  match ← fs.resolveNew q with
  | .vacant place => if old.removed = 0 then return fs.move old.place place else throw .noSuchFile
  | .present new =>
    if old.removed = 0 ∧ new.removed = 0 then return fs.move old.place new.place
    else throw .noSuchFile

/-- Makes a directory the one where relative paths begin. -/
def enter (fs : FileSystem) (p : Path) : Except SystemError FileSystem := do
  let pos ← fs.locate .look p
  if pos.node.isDirectory then
    return { fs with workingDirectory := { place := pos.place, removed := pos.removed } }
  else throw .notADirectory

end ResourceArchive.FileSystem
