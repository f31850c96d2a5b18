import Std.Data.TreeMap.Basic
import Std.Data.TreeSet.Basic
import ResourceArchive.Path

/-! Resource names as paths of files, and back. Extraction takes a name to a path below a destination
    and refuses names that would leave it; several names are refused if two of them need the same
    file, or one of them a file where another needs a directory. Packing takes a path to a name whose
    module is the first directory. -/

namespace ResourceArchive

namespace Extraction

/-- Why names cannot be extracted. -/
inductive Refusal where
  /-- A name that has an empty segment after its leading slashes, or none at all. -/
  | noFileName (name : String)
  /-- A name with components that are no names of files. -/
  | outside (name : String)
  | sharedPath (path : Path)
  | fileAndDirectory (file path : Path)
  deriving DecidableEq, Repr

def Refusal.message : Refusal → String
  | .noFileName name => "resource " ++ name ++ " has no usable file name"
  | .outside name => "refusing to extract resource " ++ name
  | .sharedPath path => "multiple resources extract to " ++ path.display
  | .fileAndDirectory file path =>
    file.display ++ " is both a resource and a directory of " ++ path.display

/-- Whether a component names a file. -/
def isName : Component → Bool
  | .name _ => true
  | _ => false

/-- The path below `dest` to which a resource is extracted. -/
def path (dest : Path) (name : String) : Except Refusal Path :=
  let relative : Path := ⟨(utf8 name).dropWhile (· == Path.slash)⟩
  if [] ∈ Path.segments relative.bytes then .error (.noFileName name)
  else if relative.components.all isName then .ok (dest.join relative)
  else .error (.outside name)

/-- The first path that was there before. -/
def firstRepeated? (seen : Std.TreeSet (List Component)) : List Path → Option Path
  | [] => none
  | p :: rest =>
    if seen.contains p.components then some p
    else firstRepeated? (seen.insert p.components) rest

/-- Of components in ascending order, those that begin with others, each with the longest such.
    `opened` are the last ones that came and what they begin with, the longest first. -/
def nested (opened : List (List Component)) :
    List (List Component) → List (List Component × List Component)
  | [] => []
  | cs :: rest =>
    let above := opened.dropWhile fun directory => !directory.isPrefixOf cs
    let others := nested (cs :: above) rest
    match above with
    | [] => others
    | directory :: _ => (cs, directory) :: others

/-- The first path that has another one among its ancestors, and the nearest such. What begins with
    some components comes right after them in the order, so one pass in order finds them all. -/
def firstNested? (paths : List Path) : Option (Path × Path) :=
  let all : Std.TreeSet (List Component) := .ofList (paths.map Path.components)
  let directories : Std.TreeMap (List Component) (List Component) := .ofList (nested [] all.toList)
  paths.findSome? fun p =>
    directories[p.components]?.map fun directory => (p.upTo directory.length, p)

/-- The paths below `dest` to which resources are extracted. -/
def paths (dest : Path) (names : List String) : Except Refusal (List Path) := do
  let paths ← names.mapM (path dest)
  if let some p := firstRepeated? {} paths then throw (.sharedPath p)
  if let some (file, p) := firstNested? paths then throw (.fileAndDirectory file p)
  return paths

end Extraction

namespace Packing

/-- Why a path gives no resource name. -/
inductive Refusal where
  | notText (path : Path)
  | unexpectedComponent (path : Path)
  | emptyPath
  deriving DecidableEq, Repr

def Refusal.message : Refusal → String
  | .notText path => "path is not valid UTF-8: " ++ path.display
  | .unexpectedComponent path => "unexpected path component in " ++ path.display
  | .emptyPath => "empty resource path"

/-- The text of a component that names a file. -/
def part (p : Path) : Component → Except Refusal String
  | .name bytes =>
    match text? bytes with
    | some s => .ok s
    | none => .error (.notText p)
  | _ => .error (.unexpectedComponent p)

/-- The name of the resource at a path below the packed directory. -/
def resourceName (p : Path) : Except Refusal String := do
  match ← p.components.mapM (part p) with
  | [] => throw .emptyPath
  | [file] => return file
  | module :: rest => return "/" ++ module ++ "/" ++ "/".intercalate rest

end Packing

end ResourceArchive
