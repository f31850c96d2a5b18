import ResourceArchive.Command.Run

/-! The program: the commands on a disk. -/

namespace ResourceArchive.Disk

/-- The failure that a system reports by number, or else in its words. Some of its calls report the
    number with a minus sign. -/
def failure (number : UInt32) (text : String) : SystemError :=
  let number := if number < 0x80000000 then number else -number
  match number with
  | 2 => .noSuchFile
  | 17 => .fileExists
  | 20 => .notADirectory
  | 21 => .isADirectory
  | 36 => .nameTooLong
  | 40 => .tooManyLinks
  | _ => .other (text ++ " (os error " ++ toString number ++ ")")

/-- The failure of the system. -/
def systemError : IO.Error → SystemError
  | .alreadyExists _ number text | .noFileOrDirectory _ number text
  | .inappropriateType _ number text | .invalidArgument _ number text
  | .permissionDenied _ number text | .resourceExhausted _ number text
  | .noSuchThing _ number text | .interrupted _ number text
  | .resourceBusy number text | .resourceVanished number text | .unsupportedOperation number text
  | .hardwareFault number text | .unsatisfiedConstraints number text
  | .illegalOperation number text | .protocolError number text | .timeExpired number text
  | .otherError number text => failure number text
  | .unexpectedEof => .unexpectedEnd
  | .userError text => .other text

/-- Tries something that the system may refuse. -/
def attempt {α : Type} (act : IO α) : IO (Except SystemError α) := do
  try
    return .ok (← act)
  catch e =>
    return .error (systemError e)

/-- A path of this library as a path of the system. -/
def fileName (p : Path) : String := p.display

/-- What is at a path; a link at its end is followed only if `follow` says so. -/
def kind (follow : Bool) (p : String) : IO IO.FS.FileType := do
  let file := System.mkFilePath [p]
  return (← if follow then file.metadata else file.symlinkMetadata).type

/-- All that an open file holds. -/
def holdings (file : IO.FS.Handle) : IO Content := do
  file.rewind
  return ⟨[.bytes (← file.readBinToEnd).data]⟩

/-- Number of zeros that are written at a time. -/
def blockSize : Nat := 0x10000

/-- Writes a run of bytes. -/
def writeRun (file : IO.FS.Stream) : Run → IO Unit
  | .bytes data => file.write ⟨data⟩
  | .zeros count => do
    let block : ByteArray := ⟨Array.replicate blockSize 0⟩
    for _ in [0:count / blockSize] do file.write block
    file.write (block.extract 0 (count % blockSize))

/-- Writes all bytes of a content. -/
def writeContent (file : IO.FS.Stream) (content : Content) : IO Unit :=
  content.runs.forM (writeRun file)

/-- What a walk meets besides directories in a directory with this path and below it. A link is met and
    not entered. -/
partial def below (directory : Path) : IO (List FileSystem.Sighting) := do
  match ← attempt (System.mkFilePath [fileName directory]).readDir with
  | .error e => return [.error (directory, e)]
  | .ok entries =>
    let names := (entries.toList.map fun entry => utf8 entry.fileName).mergeSort fun a b =>
      decide (a ≤ b)
    let mut met := []
    for name in names do
      let path := directory.join ⟨name⟩
      match ← attempt (kind false (fileName path)) with
      | .ok .dir => met := met ++ (← below path)
      | _ => met := met ++ [.ok path]
    return met

/-- What a walk from a path meets. A link at which it begins is met and entered. -/
def files (root : Path) : IO (List FileSystem.Sighting) := do
  match ← attempt (kind false (fileName root)) with
  | .error e => return [.error (root, e)]
  | .ok .dir => below root
  | .ok .symlink =>
    match ← attempt (kind true (fileName root)) with
    | .error e => return [.error (root, e)]
    | .ok .dir => return .ok root :: (← below root)
    | .ok _ => return [.ok root]
  | .ok _ => return [.ok root]

end ResourceArchive.Disk

open ResourceArchive in
/-- A disk offers what the commands need. -/
instance : FileAccess IO where
  Handle := IO.FS.Handle
  openFile p := Disk.attempt do
    let file ← IO.FS.Handle.mk (Disk.fileName p) .read
    return (file, ← Disk.holdings file)
  holdings file := return (← Disk.attempt (Disk.holdings file)).toOption.getD {}
  writeFile p content := Disk.attempt do
    let file ← IO.FS.Handle.mk (Disk.fileName p) .write
    Disk.writeContent (IO.FS.Stream.ofHandle file) content
    file.flush
  createDirectory p := Disk.attempt (IO.FS.createDir (Disk.fileName p))
  isDirectory p := do
    match ← Disk.attempt (Disk.kind true (Disk.fileName p)) with
    | .ok .dir => return true
    | _ => return false
  files p := Disk.files p

/-- Carries a command line out. -/
def main (args : List String) : IO UInt32 := do
  let outcome ← ResourceArchive.Command.run args
  let stdout ← IO.getStdout
  ResourceArchive.Disk.writeContent stdout outcome.output
  stdout.flush
  IO.eprint outcome.log
  return UInt32.ofNat outcome.status
