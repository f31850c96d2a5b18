import ResourceArchive.Content
import ResourceArchive.Error
import ResourceArchive.Text

/-! What a command leaves behind: an exit status, bytes for the standard output, and text for the
    standard error. -/

namespace ResourceArchive.Command

/-- Text whose further lines are set in. -/
def indented (margin text : String) : String :=
  String.ofList (text.toList.flatMap fun c => if c = '\n' then c :: margin.toList else [c])

/-- A failure and, below it, what caused it. -/
structure Failure where
  message : String
  causes : List String := []
  deriving DecidableEq, Repr

namespace Failure

def ofSystem (e : SystemError) : Failure := ⟨e.message, []⟩

/-- The failure of a container. A failure of the system below it is its cause. -/
def ofError : Error → Failure
  | .io e => ⟨(Error.io e).message, [e.message]⟩
  | e => ⟨e.message, []⟩

/-- Says what was being done. -/
def during (f : Failure) (what : String) : Failure := ⟨what, f.message :: f.causes⟩

/-- A cause in a list of several, with its number in a column of five. -/
def numbered (i : Nat) (cause : String) : String :=
  let digits := toString i
  "".pushn ' ' (5 - digits.length) ++ digits ++ ": " ++ indented "       " cause

/-- The failure as it is reported: the message, and the causes under a line of their own. -/
def report (f : Failure) : String :=
  let causes := match f.causes with
    | [] => ""
    | [cause] => "\n\nCaused by:\n    " ++ indented "    " cause
    | causes => "\n\nCaused by:\n" ++
      "\n".intercalate (causes.zipIdx.map fun (cause, i) => numbered i cause)
  "Error: " ++ f.message ++ causes ++ "\n"

end Failure

structure Outcome where
  status : Nat := 0
  output : Content := {}
  log : String := ""
  deriving DecidableEq, Repr

namespace Outcome

/-- Ends with a failure, after what was written before it. -/
def fail (o : Outcome) (f : Failure) : Outcome :=
  { o with status := 1, log := o.log ++ f.report }

/-- Prints lines. -/
def print (o : Outcome) (lines : List String) : Outcome :=
  { o with output := o.output ++ .ofBytes (lines.flatMap fun line => utf8 (line ++ "\n")) }

/-- Logs an entry. Further lines of its text are set in. -/
def note (o : Outcome) (text : String) : Outcome :=
  { o with log := o.log ++ indented "    " text ++ "\n" }

end Outcome

end ResourceArchive.Command
