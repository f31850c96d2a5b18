import ResourceArchive.Archive
import ResourceArchive.FileSystem.Basic

/-! Sharing open containers. A registry holds each container once, under the place of its file, and
    counts how often it was opened; the container is let go when it was closed as often. The paths
    under which it was opened are kept, so that it can be closed when they lead nowhere. -/

namespace ResourceArchive

/-- A container opened from a file. -/
structure OpenFile where
  archive : Archive
  /-- The file, which stays readable when its place is gone. -/
  file : FileId
  path : Path
  deriving DecidableEq

/-- Opens the container to which a path leads. -/
def FileSystem.openArchive (fs : FileSystem) (o : ByteOrder) (p : Path) : Except Error OpenFile :=
  match fs.fileAt p with
  | .error e => .error (.io e)
  | .ok id =>
    match Archive.ofFile o (fs.content id) with
    | .error e => .error e
    | .ok archive => .ok ⟨archive, id, p⟩

/-- An open container that is shared; equal numbers mean the same one. -/
structure Shared where
  number : Nat
  image : OpenFile
  deriving DecidableEq

namespace Registry

/-- A container that is held. -/
structure Entry where
  place : Place
  shared : Shared
  opens : Nat
  /-- Components of the absolute paths under which it was opened. -/
  aliases : List (List Component)
  deriving DecidableEq

end Registry

structure Registry where
  order : ByteOrder := .little
  entries : List Registry.Entry := []
  /-- Number of containers opened so far. -/
  issued : Nat := 0
  deriving DecidableEq

namespace Registry

/-- Number of containers held. -/
def size (r : Registry) : Nat := r.entries.length

/-- Lets every container go. -/
def clear (r : Registry) : Registry := { r with entries := [] }

/-- Replaces the entry of a place. -/
def modify (r : Registry) (place : Place) (f : Entry → Entry) : Registry :=
  { r with entries := r.entries.map fun e => if e.place = place then f e else e }

/-- Removes the entry of a place. -/
def erase (r : Registry) (place : Place) : Registry :=
  { r with entries := r.entries.filter (·.place ≠ place) }

/-- The entry of a place. -/
def at? (r : Registry) (place : Place) : Option Entry := r.entries.find? (·.place = place)

/-- The entry that a path means: by where it leads, else as a path under which it was opened. -/
def entryFor (r : Registry) (fs : FileSystem) (p : Path) : Except Error (Option Entry) :=
  let byPlace := match fs.canonicalize p with
    | .ok place => r.at? place
    | .error _ => none
  match byPlace with
  | some e => .ok (some e)
  | none =>
    match fs.absolute p with
    | .error e => .error (.io e)
    | .ok absolute => .ok (r.entries.find? fun e => e.aliases.contains absolute.components)

/-- Adds a path to those under which a container was opened. -/
def Entry.reopen (e : Entry) (spelling : List Component) : Entry :=
  { e with opens := e.opens + 1, aliases := e.aliases.insert spelling }

/-- Opens the container to which a path leads, or shares it if it is held: the container, and the registry
    afterwards. -/
def openAt (r : Registry) (fs : FileSystem) (p : Path) : Except Error Shared × Registry :=
  match fs.canonicalize p, fs.absolute p with
  | .error e, _ => (.error (.io e), r)
  | .ok _, .error e => (.error (.io e), r)
  | .ok place, .ok absolute =>
    match r.at? place with
    | some e => (.ok e.shared, r.modify place (·.reopen absolute.components))
    | none =>
      match fs.openArchive r.order (FileSystem.pathOf place) with
      | .error e => (.error e, r)
      | .ok image =>
        let shared : Shared := ⟨r.issued, image⟩
        let entry : Entry := ⟨place, shared, 1, [absolute.components]⟩
        (.ok shared, { r with entries := r.entries ++ [entry], issued := r.issued + 1 })

/-- Takes back one opening: whether the container is no longer held, and the registry afterwards. -/
def closeAt (r : Registry) (fs : FileSystem) (p : Path) : Except Error Bool × Registry :=
  match r.entryFor fs p with
  | .error e => (.error e, r)
  | .ok none => (.ok true, r)
  | .ok (some e) =>
    if 1 < e.opens then
      (.ok false, r.modify e.place fun e => { e with opens := e.opens - 1 })
    else (.ok true, r.erase e.place)

/-- A container that was opened or shared, in the registry that holds it. -/
def acquire (r : Registry) (fs : FileSystem) (p : Path) : Except Error (Shared × Registry) :=
  succeeded (r.openAt fs p)

/-- Whether a container was let go, and the registry without the opening. -/
def release (r : Registry) (fs : FileSystem) (p : Path) : Except Error (Bool × Registry) :=
  succeeded (r.closeAt fs p)

/-- How many openings of the container that a path means are not taken back. -/
def openCount (r : Registry) (fs : FileSystem) (p : Path) : Nat :=
  match r.entryFor fs p with
  | .ok (some e) => e.opens
  | _ => 0

end Registry

end ResourceArchive
