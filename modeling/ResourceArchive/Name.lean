import ResourceArchive.Error
import ResourceArchive.Text

/-! Resource names. A full name is `/module/parent/base.extension`, where every part may be empty
    and then loses its separator. `NameParts.split` takes a name apart, `fullName` puts it together,
    and `accepts` compares parts with a name piece by piece, without building the full name. -/

namespace ResourceArchive

/-- Breaks a list at the first `c`, which is dropped. -/
def breakFirst (c : Char) (cs : List Char) : Option (List Char × List Char) :=
  match cs.span (· != c) with
  | (before, _ :: after) => some (before, after)
  | (_, []) => none

/-- Breaks a list at the last `c`, which is dropped. -/
def breakLast (c : Char) (cs : List Char) : Option (List Char × List Char) :=
  (breakFirst c cs.reverse).map fun (after, before) => (before.reverse, after.reverse)

/-- The parts of a resource name. -/
structure NameParts where
  module : String := ""
  parent : String := ""
  base : String := ""
  extension : String := ""
  deriving DecidableEq, Repr, Inhabited

namespace NameParts

/-- A leading `/module/`, and what follows it. Without a second slash there is no module. -/
def takeModule : List Char → List Char × List Char
  | '/' :: cs => (breakFirst '/' cs).getD ([], '/' :: cs)
  | cs => ([], cs)

/-- The directories before the last slash, and the file after it. -/
def takeParent (cs : List Char) : List Char × List Char := (breakLast '/' cs).getD ([], cs)

/-- A file's base, and the extension after its last dot. A dot at either end separates nothing. -/
def takeExtension (cs : List Char) : List Char × List Char :=
  match breakLast '.' cs with
  | some (b :: base, e :: ext) => (b :: base, e :: ext)
  | _ => (cs, [])

/-- The parts that a name's slashes and dots mark off. -/
def ofChars (cs : List Char) : NameParts :=
  let (module, path) := takeModule cs
  let (parent, file) := takeParent path
  let (base, ext) := takeExtension file
  ⟨String.ofList module, String.ofList parent, String.ofList base, String.ofList ext⟩

/-- A part with the separators around it; nothing for an empty part. -/
def framed (before part after : String) : String :=
  if part = "" then "" else before ++ part ++ after

/-- The full name that the parts make up. -/
def fullName (p : NameParts) : String :=
  framed "/" p.module "/" ++ framed "" p.parent "/" ++ p.base ++ framed "." p.extension ""

/-- Takes a name apart. A name that is empty, holds a NUL or is not made up of its parts again (such
    as `/a` or `//a`) cannot be stored. -/
def split (name : String) : Except Error NameParts :=
  let parts := ofChars name.toList
  if name = "" ∨ '\x00' ∈ name.toList ∨ parts.fullName ≠ name then .error (.invalidName name)
  else .ok parts

/-- Takes a part and its separators off the front of a name. -/
def strip (before part after : String) (name : Bytes) : Option Bytes :=
  if part = "" then some name
  else do
    let name ← (utf8 before).isPrefixOf? name
    let name ← (utf8 part).isPrefixOf? name
    (utf8 after).isPrefixOf? name

/-- Whether the parts make up a name. -/
def accepts (p : NameParts) (name : Bytes) : Bool :=
  let rest : Option Bytes := do
    let name ← strip "/" p.module "/" name
    let name ← strip "" p.parent "/" name
    let name ← (utf8 p.base).isPrefixOf? name
    strip "." p.extension "" name
  rest == some []

end NameParts

end ResourceArchive
