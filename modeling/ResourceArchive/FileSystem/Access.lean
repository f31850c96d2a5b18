import ResourceArchive.FileSystem.Change

/-! What a command needs of a file system. Commands are written against these operations; a file system
    that is a value gives them their meaning, and a disk offers the same. -/

namespace ResourceArchive

class FileAccess (m : Type → Type) where
  /-- A file that was opened for reading. -/
  Handle : Type
  /-- Opens a file, and says what it holds. -/
  openFile : Path → m (Except SystemError (Handle × Content))
  /-- What an open file holds now. -/
  holdings : Handle → m Content
  /-- Writes a file, in place if it is there. -/
  writeFile : Path → Content → m (Except SystemError Unit)
  /-- Makes a directory in one that is there. -/
  createDirectory : Path → m (Except SystemError Unit)
  /-- Whether a path leads to a directory. -/
  isDirectory : Path → m Bool
  /-- What a walk from a path meets besides directories, in the order of the names. -/
  files : Path → m (List FileSystem.Sighting)

namespace FileAccess

variable {m : Type → Type} [Monad m] [FileAccess m]

/-- Makes a directory unless it is there already. -/
def ensureDirectory (p : Path) : m (Except SystemError Unit) := do
  match ← createDirectory p with
  | .ok () => return .ok ()
  | .error e => return if ← isDirectory p then .ok () else .error e

/-- Makes a directory and, up to `n` levels above it, those it is in. Only the lack of the directory
    above is a reason to make that one first. -/
def createLevels (p : Path) : Nat → m (Except SystemError Unit)
  | 0 => return .error .noSuchFile
  | n + 1 =>
    if p.bytes = [] then return .ok ()
    else do
      match ← ensureDirectory p with
      | .error .noSuchFile =>
        match p.parent? with
        | none => return .error (.other "failed to create whole tree")
        | some parent =>
          match ← createLevels parent n with
          | .error e => return .error e
          | .ok () => ensureDirectory p
      | result => return result

/-- Makes a directory and all it is in, as far as they are not there. What was made before a failure
    stays. -/
def createDirectories (p : Path) : m (Except SystemError Unit) :=
  createLevels p (p.components.length + 1)

end FileAccess

namespace FileSystem

/-- Carries a change out, unless it fails. -/
def attempt (change : FileSystem → Except SystemError FileSystem) :
    StateM FileSystem (Except SystemError Unit) := fun fs =>
  match change fs with
  | .ok fs => (.ok (), fs)
  | .error e => (.error e, fs)

/-- The operations on a file system that is a value, where `walk` says what a walk meets. -/
@[reducible] def access (walk : FileSystem → Path → List Sighting) : FileAccess (StateM FileSystem) where
  Handle := FileId
  openFile p := fun fs =>
    (match fs.fileAt p with
      | .ok id => .ok (id, fs.content id)
      | .error e => .error e, fs)
  holdings id := fun fs => (fs.content id, fs)
  writeFile p content := attempt (·.write p content)
  createDirectory p := attempt (·.createDirectory p)
  isDirectory p := fun fs => (fs.isDirectory p, fs)
  files p := fun fs => (walk fs p, fs)

instance : FileAccess (StateM FileSystem) := access files

end FileSystem

end ResourceArchive
