import ResourceArchive.Archive
import ResourceArchive.Command.Arguments
import ResourceArchive.Command.Outcome
import ResourceArchive.Decimal
import ResourceArchive.Draft
import ResourceArchive.Extraction
import ResourceArchive.FileSystem.Access
import ResourceArchive.Text.Quoted

/-! The commands. What a command reports is computed from the open container alone; the file system is
    reached only through `FileAccess`. -/

namespace ResourceArchive.Command

/-! Reports -/

def orderName : ByteOrder → String
  | .little => "Little"
  | .big => "Big"

/-- The lines of `info` that the header gives. -/
def headerLines (a : Archive) : List String :=
  let h := a.header
  ["version: " ++ toString h.majorVersion ++ "." ++ toString h.minorVersion,
    "byte order: " ++ orderName a.order,
    "resources: " ++ toString h.resourceCount,
    "index buckets: " ++ toString h.bucketCount,
    "index tables size: " ++ toString h.tableSize,
    "location records size: " ++ toString h.locationsSize,
    "string pool size: " ++ toString h.stringsSize,
    "index size: " ++ toString h.indexSize,
    "content size: " ++ toString (a.length - h.indexSize)]

def info (a : Archive) : Outcome :=
  let o := ({} : Outcome).print (headerLines a)
  match a.moduleNames with
  | .ok modules => o.print ["modules: " ++ ", ".intercalate modules]
  | .error e => o.fail (.ofError e)

/-- Prints names up to the first record that cannot be read. -/
def list (a : Archive) (module : Option String) : Outcome :=
  let collect (lines : List String) (l : Location) : Except Error (List String) :=
    .ok (if module.all (· == l.name.module) then l.fullName :: lines else lines)
  let (lines, fault) := a.visit collect []
  let o := ({} : Outcome).print lines.reverse
  match fault with
  | none => o
  | some e => o.fail (.ofError e)

def verify (a : Archive) : Outcome :=
  match a.verify with
  | .ok count => ({} : Outcome).print ["verified " ++ toString count ++ " resources"]
  | .error e => ({} : Outcome).fail (.ofError e)

/-- Every resource of a container, with the path to which it is extracted. -/
def extraction (a : Archive) (dest : Path) : Except Failure (List (Location × Path)) :=
  match a.fold (fun locations l => .ok (l :: locations)) [] with
  | .error e => .error (.ofError e)
  | .ok locations =>
    let locations := locations.reverse
    match Extraction.paths dest (locations.map Location.fullName) with
    | .error refusal => .error ⟨refusal.message, []⟩
    | .ok paths => .ok (locations.zip paths)

/-- The name under which something that a walk met is packed, with its path. -/
def packedName (source : Path) : FileSystem.Sighting → Except Failure (String × Path)
  | .error (path, e) =>
    .error ((Failure.ofSystem e).during
      ("IO error for operation on " ++ path.display ++ ": " ++ e.message))
  | .ok path =>
    match path.relativeTo? source with
    | none => .error ⟨"prefix not found", []⟩
    | some relative =>
      match Packing.resourceName relative with
      | .error refusal => .error ⟨refusal.message, []⟩
      | .ok name => .ok (name, path)

/-- The names under which files are packed, with the paths of the files, in the order of the names.
    Nothing is packed if the walk met something that cannot be. -/
def packing (source : Path) (met : List FileSystem.Sighting) : Except Failure (List (String × Path)) := do
  return (Std.TreeMap.ofList (← met.mapM (packedName source))).toList

/-- Reads the density of the command line. -/
def density (text : String) : Except Failure Binary64 :=
  match Decimal.parse text with
  | .ok x => .ok x
  | .error fault =>
    let cause := "The argument '" ++ text ++ "' isn't a valid value for 'density': " ++ fault.message
    .error ⟨"error: Invalid value " ++ quoted text ++ " for 'density': " ++ cause ++ "\n", [cause]⟩

/-! Commands -/

variable {m : Type → Type} [Monad m] [FileAccess m]

/-- Opens a container and goes on with it. -/
def withArchive (order : ByteOrder) (image : String)
    (next : FileAccess.Handle m → Archive → m Outcome) : m Outcome := do
  let opened ← FileAccess.openFile (Path.ofString image)
  let opened := match opened with
    | .error e => Except.error (Error.io e)
    | .ok (handle, file) => (Archive.ofFile order file).map (handle, ·)
  match opened with
  | .ok (handle, archive) => next handle archive
  | .error e =>
    return ({} : Outcome).fail ((Failure.ofError e).during ("opening module image " ++ image))

def extract (order : ByteOrder) (image name : String) (output : Option String) : m Outcome :=
  withArchive order image fun handle a => do
    match a.find? name with
    | .error e => return ({} : Outcome).fail (.ofError e)
    | .ok none => return ({} : Outcome).fail ⟨"resource not found: " ++ name, []⟩
    | .ok (some l) =>
      let o : Outcome := {}
      let o := if l.isCompressed then o.note (name ++ " is compressed; writing stored bytes") else o
      match a.read (← FileAccess.holdings handle) l with
      | .error e => return o.fail (.ofError e)
      | .ok content =>
        match output with
        | none => return { o with output := content }
        | some file =>
          match ← FileAccess.writeFile (Path.ofString file) content with
          | .error e => return o.fail ((Failure.ofSystem e).during ("writing " ++ file))
          | .ok () => return o.note ("wrote " ++ toString content.length ++ " bytes to " ++ file)

/-- Makes the directory that a path is in. -/
def makeParent (p : Path) : m (Except SystemError Unit) :=
  match p.parent? with
  | some parent => FileAccess.createDirectories parent
  | none => return .ok ()

/-- Writes resources to their paths, one after another. -/
def writeResources (handle : FileAccess.Handle m) (a : Archive) :
    List (Location × Path) → m (Except Failure Unit)
  | [] => return .ok ()
  | (l, path) :: rest => do
    match ← makeParent path with
    | .error e => return .error (.ofSystem e)
    | .ok () =>
      match a.read (← FileAccess.holdings handle) l with
      | .error e => return .error (.ofError e)
      | .ok content =>
        match ← FileAccess.writeFile path content with
        | .error e => return .error ((Failure.ofSystem e).during ("writing " ++ path.display))
        | .ok () => writeResources handle a rest

def extractAll (order : ByteOrder) (image dest : String) : m Outcome :=
  withArchive order image fun handle a => do
    match extraction a (Path.ofString dest) with
    | .error f => return ({} : Outcome).fail f
    | .ok resources =>
      match ← writeResources handle a resources with
      | .error f => return ({} : Outcome).fail f
      | .ok () =>
        return ({} : Outcome).note
          ("extracted " ++ toString resources.length ++ " resources to " ++ dest)

/-- Adds files to a draft, under their names. -/
def gather (d : Draft) : List (String × Path) → m (Except Failure Draft)
  | [] => return .ok d
  | (name, path) :: rest => do
    match ← FileAccess.openFile path with
    | .error e => return .error ((Failure.ofSystem e).during ("reading " ++ path.display))
    | .ok (_, content) =>
      match d.add name (.plain content) with
      | .error e => return .error (.ofError e)
      | .ok d => gather d rest

/-- The lines that report a container just written. -/
def packLog (d : Draft) (l : Draft.Layout) (image : String) : Outcome :=
  (({} : Outcome).note
    ("wrote module image with " ++ toString d.size ++ " resources (" ++ toString l.assignment.size
      ++ " buckets, " ++ toString l.header.indexSize ++ " index bytes, "
      ++ toString l.contentSize ++ " content bytes)")).note
    ("packed " ++ toString d.size ++ " resources into " ++ image ++ " (" ++ toString l.size
      ++ " bytes)")

/-- Writes a draft to a file. The file is made, and emptied, before the draft is laid out. -/
def writeDraft (d : Draft) (image : String) : m Outcome := do
  let path := Path.ofString image
  let creating (e : SystemError) := (Failure.ofSystem e).during ("creating " ++ image)
  match ← FileAccess.writeFile path {} with
  | .error e => return ({} : Outcome).fail (creating e)
  | .ok () =>
    match d.layout with
    | .error e => return ({} : Outcome).fail (.ofError e)
    | .ok l =>
      match ← FileAccess.writeFile path (l.toContent d.options.order) with
      | .error e => return ({} : Outcome).fail (.ofError (.io e))
      | .ok () => return packLog d l image

def pack (order : ByteOrder) (source image densityText : String) : m Outcome := do
  match density densityText with
  | .error f => return ({} : Outcome).fail f
  | .ok density =>
    let source := Path.ofString source
    match packing source (← FileAccess.files source) with
    | .error f => return ({} : Outcome).fail f
    | .ok resources =>
      let draft : Draft := { options := { order := order, density := density } }
      match ← gather draft resources with
      | .error f => return ({} : Outcome).fail f
      | .ok d => writeDraft d image

/-- Carries an action out. -/
def Action.perform (order : ByteOrder) : Action → m Outcome
  | .info image => withArchive order image fun _ a => return Command.info a
  | .list image module => withArchive order image fun _ a => return Command.list a module
  | .verify image => withArchive order image fun _ a => return Command.verify a
  | .extract image name output => Command.extract order image name output
  | .extractAll image dest => Command.extractAll order image dest
  | .pack source image density => Command.pack order source image density

/-- The program's name and version. -/
def versionLine : String := "Module Image Tool 0.1.0-pre"

/-- How the program is used. -/
def usageLines : List String :=
  ["Inspect and produce module images", "",
    "USAGE:",
    "    mimage [-v] [--big-endian | --little-endian] <COMMAND>", "",
    "COMMANDS:",
    "    info IMAGE                          Print header fields and region sizes",
    "    list IMAGE [--module NAME]          Print the names of resources",
    "    extract IMAGE NAME [-o FILE]        Write the stored bytes of a single resource",
    "    extract-all IMAGE DIR               Write every resource to a directory",
    "    pack DIR IMAGE [--density RATIO]    Build a module image from a directory tree",
    "    verify IMAGE                        Check that every resource is reachable"]

/-- Carries out what a command line asks for. -/
def run (args : List String) : m Outcome :=
  match parse args with
  | .run order action => action.perform order
  | .help => return ({} : Outcome).print usageLines
  | .version => return ({} : Outcome).print [versionLine]
  | .noCommand => return ({} : Outcome).fail ⟨"invalid sub-command", []⟩
  | .misuse => return { status := 2, log := String.join (usageLines.map (· ++ "\n")) }

end ResourceArchive.Command
