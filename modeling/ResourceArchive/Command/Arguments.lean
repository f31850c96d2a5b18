import ResourceArchive.Bytes

/-! The command line: a command with its arguments, and options before and after it. Words are read
    from left to right; a request for help or for the version ends the reading. Whatever else a level
    of the line lacks or has too much of is found out at its end, the command's level first. -/

namespace ResourceArchive.Command

/-- Something to do with a container. -/
inductive Action where
  | info (image : String)
  | list (image : String) (module : Option String)
  | extract (image name : String) (output : Option String)
  | extractAll (image dest : String)
  | pack (source image density : String)
  | verify (image : String)
  deriving DecidableEq, Repr

/-- What a command line asks for. -/
inductive Request where
  | run (order : ByteOrder) (action : Action)
  | help
  | version
  /-- A line with options and no command. -/
  | noCommand
  /-- A line that cannot be read. -/
  | misuse
  deriving DecidableEq, Repr

/-- An option: its long name, perhaps a letter, and whether a value follows. -/
structure Switch where
  long : String
  short : Option Char := none
  takesValue : Bool := false
  repeatable : Bool := false
  deriving DecidableEq, Repr

def verbose : Switch := { long := "verbose", short := some 'v', repeatable := true }
def bigEndian : Switch := { long := "big-endian" }
def littleEndian : Switch := { long := "little-endian" }

/-- The options that stand on either side of the command. -/
def everywhere : List Switch := [verbose, bigEndian, littleEndian]

def moduleSwitch : Switch := { long := "module", takesValue := true }
def outputSwitch : Switch := { long := "output", short := some 'o', takesValue := true }
def densitySwitch : Switch := { long := "density", takesValue := true }

/-- A command: its name, how many words it takes, and the options of its own. -/
structure Form where
  name : String
  words : Nat
  switches : List Switch := []

def commands : List Form :=
  [{ name := "info", words := 1 },
    { name := "list", words := 1, switches := [moduleSwitch] },
    { name := "extract", words := 2, switches := [outputSwitch] },
    { name := "extract-all", words := 2 },
    { name := "pack", words := 2, switches := [densitySwitch] },
    { name := "verify", words := 1 }]

/-- What was read of one level of the line: the options, with their values, and the words. -/
structure Level where
  given : List (Switch × Option String) := []
  words : List String := []
  deriving DecidableEq, Repr

namespace Level

def has (l : Level) (s : Switch) : Bool := l.given.any (·.1 == s)

/-- The value of an option. -/
def value? (l : Level) (s : Switch) : Option String := (l.given.find? (·.1 == s)).bind (·.2)

/-- Whether the options may stand together: none twice that may not, none without its value, and not
    both byte orders. -/
def isConsistent (l : Level) : Bool :=
  l.given.all (fun (s, value) =>
    (s.repeatable || l.given.countP (·.1 == s) == 1) && (!s.takesValue || value.isSome))
  && !(l.has bigEndian && l.has littleEndian)

end Level

/-- Why the reading of a line ends early. -/
inductive Stop where
  | help
  | version
  | misuse
  deriving DecidableEq, Repr

def Stop.request : Stop → Request
  | .help => .help
  | .version => .version
  | .misuse => .misuse

/-- What is read at a level: its options, how many words it takes, and whether it is the level of the
    program itself, where the first word is the command. -/
structure Grammar where
  switches : List Switch
  words : Nat := 0
  isProgram : Bool := false

/-- An option with a value in the same word is complete; one that still needs a value waits for it. -/
structure Reading where
  level : Level := {}
  waiting : Option Switch := none

namespace Reading

def add (r : Reading) (s : Switch) (value : Option String) : Reading :=
  { r with level := { r.level with given := r.level.given ++ [(s, value)] } }

/-- Gives up waiting. The option stays without its value. -/
def settle (r : Reading) : Reading :=
  match r.waiting with
  | none => r
  | some s => { r.add s none with waiting := none }

/-- Takes an option, with the value that came with it. -/
def take (r : Reading) (s : Switch) (value : Option String) : Except Stop Reading :=
  match s.takesValue, value with
  | true, some v => .ok (r.add s v)
  | true, none => .ok { r with waiting := some s }
  | false, none => .ok (r.add s none)
  | false, some _ => .error .misuse

end Reading

/-- Reads an option with a long name, and its value after `=`. -/
def readLong (g : Grammar) (r : Reading) (text : List Char) : Except Stop Reading :=
  let name := String.ofList (text.takeWhile (· != '='))
  let value := match text.dropWhile (· != '=') with
    | [] => none
    | _ :: cs => some (String.ofList cs)
  if name = "help" ∧ value.isNone then .error .help
  else if g.isProgram ∧ name = "version" ∧ value.isNone then .error .version
  else match g.switches.find? (·.long == name) with
    | some s => r.take s value
    | none => .error .misuse

/-- Reads letters of options. The rest of the word after one with a value is the value. -/
def readShort (g : Grammar) (r : Reading) : List Char → Except Stop Reading
  | [] => .ok r
  | c :: cs =>
    if c = 'h' then .error .help
    else if g.isProgram ∧ c = 'V' then .error .version
    else match g.switches.find? (·.short == some c) with
      | none => .error .misuse
      | some s =>
        if s.takesValue then
          match cs with
          | [] => r.take s none
          | '=' :: cs => r.take s (some (String.ofList cs))
          | cs => r.take s (some (String.ofList cs))
        else do readShort g (← r.take s none) cs

/-- Takes a word that is no option. -/
def readWord (g : Grammar) (r : Reading) (word : String) : Except Stop Reading :=
  if r.level.words.length < g.words then
    .ok { r with level := { r.level with words := r.level.words ++ [word] } }
  else .error .misuse

/-- Reads a level. At the program's own level the command and what follows it are left. -/
def readLevel (g : Grammar) (r : Reading) : List String → Except Stop (Level × List String)
  | [] => .ok (r.settle.level, [])
  | word :: rest =>
    match word.toList with
    | ['-', '-'] => do
      let r ← rest.foldlM (readWord g) r.settle
      return (r.level, [])
    | '-' :: '-' :: text => do readLevel g (← readLong g r.settle text) rest
    | '-' :: c :: text => do readLevel g (← readShort g r.settle (c :: text)) rest
    | _ =>
      match r.waiting with
      | some s => readLevel g { r.add s (some word) with waiting := none } rest
      | none =>
        if g.isProgram then .ok (r.level, word :: rest)
        else do readLevel g (← readWord g r word) rest

/-- The action of a command whose level was read, if it has all its words. -/
def action? (name : String) (l : Level) : Option Action :=
  match name, l.words with
  | "info", [image] => some (.info image)
  | "list", [image] => some (.list image (l.value? moduleSwitch))
  | "extract", [image, name] => some (.extract image name (l.value? outputSwitch))
  | "extract-all", [image, dest] => some (.extractAll image dest)
  | "pack", [source, image] =>
    some (.pack source image ((l.value? densitySwitch).getD "1.0"))
  | "verify", [image] => some (.verify image)
  | _, _ => none

/-- The byte order that the options of both levels ask for. -/
def byteOrder (outer inner : Level) : ByteOrder :=
  if outer.has bigEndian || inner.has bigEndian then .big else .little

/-- Whether a request for help names commands of this program, each within the one before. -/
def helpTopic (topic : List String) : Bool :=
  match topic with
  | [] => true
  | [name] => name == "help" || commands.any (·.name == name)
  | _ => false

/-- Reads the level of a command, and then settles the program's own. -/
def readCommand (outer : Level) (name : String) (rest : List String) : Request :=
  if name = "help" then if helpTopic rest then .help else .misuse
  else match commands.find? (·.name == name) with
    | none => .misuse
    | some c =>
      match readLevel { switches := everywhere ++ c.switches, words := c.words } {} rest with
      | .error stop => stop.request
      | .ok (inner, _) =>
        match action? name inner with
        | none => .misuse
        | some action =>
          if inner.isConsistent && outer.isConsistent then .run (byteOrder outer inner) action
          else .misuse

/-- Reads a command line. -/
def parse (args : List String) : Request :=
  match readLevel { switches := everywhere, isProgram := true } {} args with
  | .error stop => stop.request
  | .ok (outer, name :: rest) => readCommand outer name rest
  | .ok (outer, []) =>
    if outer.given.isEmpty then .misuse
    else if outer.isConsistent then .noCommand
    else .misuse

end ResourceArchive.Command
