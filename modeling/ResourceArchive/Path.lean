import ResourceArchive.Text

/-! Paths of a file system whose separator is the slash. A path is kept as it was given; two spellings
    mean the same path when their components are equal. Components leave out repeated and trailing
    slashes, and dots other than a leading one. -/

namespace ResourceArchive

/-- A path as it was given. -/
structure Path where
  bytes : Bytes
  deriving DecidableEq, Repr, Inhabited

/-- What a path consists of. -/
inductive Component where
  | root
  /-- A leading dot. -/
  | here
  /-- Two dots. -/
  | up
  | name (bytes : Bytes)
  deriving DecidableEq, Repr

/-- A key that orders components. -/
def Component.key : Component → List Bytes
  | .root => []
  | .here => [[]]
  | .up => [[], []]
  | .name bytes => [bytes, [], []]

instance : Ord Component := ⟨compareOn Component.key⟩

instance : Std.TransOrd Component := inferInstanceAs (Std.TransCmp (compareOn Component.key))

instance : Std.LawfulEqOrd Component where
  eq_of_compare {a b} h := by
    have h : a.key = b.key := Std.LawfulEqOrd.eq_of_compare h
    cases a <;> cases b <;> simp_all [Component.key]

namespace Path

@[match_pattern] def slash : UInt8 := 0x2F
@[match_pattern] def dot : UInt8 := 0x2E

def ofString (s : String) : Path := ⟨utf8 s⟩

/-- The path as a person sees it. -/
def display (p : Path) : String := lenientText p.bytes

def isAbsolute (p : Path) : Bool := p.bytes.head? == some slash

/-- The runs of bytes between slashes, of which there is always one more than there are slashes. -/
def segments : Bytes → List Bytes
  | [] => [[]]
  | b :: bs =>
    if b = slash then [] :: segments bs
    else match segments bs with
      | s :: rest => (b :: s) :: rest
      | [] => [[b]]

/-- Segments with slashes between them. -/
def unsegment : List Bytes → Bytes
  | [] => []
  | [s] => s
  | s :: rest => s ++ slash :: unsegment rest

/-- The component of a segment; an empty segment and a dot have none. -/
def component? : Bytes → Option Component
  | [] | [dot] => none
  | [dot, dot] => some .up
  | s => some (.name s)

/-- Breaks off what makes a path absolute, or a leading dot; what follows is the body. -/
def anchor (p : Path) : Bytes × Bytes :=
  if p.isAbsolute then ([slash], p.bytes.drop 1)
  else if p.bytes = [dot] ∨ [dot, slash].isPrefixOf p.bytes then ([dot], p.bytes.drop 1)
  else ([], p.bytes)

/-- The component of an anchor. -/
def anchorComponents (a : Bytes) : List Component :=
  if a = [slash] then [.root] else if a = [dot] then [.here] else []

def components (p : Path) : List Component :=
  let (a, body) := p.anchor
  anchorComponents a ++ (segments body).filterMap component?

/-- Drops segments without a component from the end. -/
def trim (segs : List Bytes) : List Bytes :=
  (segs.reverse.dropWhile fun s => (component? s).isNone).reverse

/-- The first segments, as many as hold `n` components. -/
def firstNames : Nat → List Bytes → List Bytes
  | 0, _ | _, [] => []
  | n + 1, s :: rest => s :: firstNames (if (component? s).isSome then n else n + 1) rest

/-- The path up to and with its `n`-th component. -/
def upTo (p : Path) (n : Nat) : Path :=
  let (a, body) := p.anchor
  if n = 0 then ⟨[]⟩
  else ⟨a ++ unsegment (firstNames (n - (anchorComponents a).length) (segments body))⟩

/-- The path without its last component, unless it has none or is the root. -/
def parent? (p : Path) : Option Path :=
  let (a, body) := p.anchor
  let segs := segments body
  match segs.countP fun s => (component? s).isSome with
  | 0 => if a = [dot] then some ⟨[]⟩ else none
  | n + 1 => some ⟨a ++ unsegment (firstNames n segs)⟩

/-- A path seen from another one. -/
def join (p q : Path) : Path :=
  if q.isAbsolute then q
  else if p.bytes = [] ∨ p.bytes.getLast? = some slash then ⟨p.bytes ++ q.bytes⟩
  else ⟨p.bytes ++ slash :: q.bytes⟩

/-- Passes the first `n` segments that have a component. What is left begins with the next such. -/
def pass : Nat → List Bytes → List Bytes
  | _, [] => []
  | n, s :: rest =>
    if (component? s).isNone then pass n rest
    else match n with
      | 0 => s :: rest
      | n + 1 => pass n rest

/-- The path as seen from a directory that it begins with. -/
def relativeTo? (p directory : Path) : Option Path :=
  if directory.components.isPrefixOf p.components then
    let (a, body) := p.anchor
    let segs := trim (segments body)
    if directory.components = [] then some ⟨a ++ unsegment segs⟩
    else
      let names := directory.components.length - (anchorComponents a).length
      some ⟨unsegment (pass names segs)⟩
  else none

/-- A path through directories with these names. -/
def ofNames (names : List Bytes) : Path := ⟨unsegment names⟩

/-- One step of following a path. -/
inductive Step where
  /-- Stay, in what has to be a directory. -/
  | here
  | up
  | name (bytes : Bytes)
  /-- Stay, as a slash at the end of the path says. -/
  | slash
  deriving DecidableEq, Repr

/-- The step of a segment that is not empty. -/
def step : Bytes → Step
  | [dot] => .here
  | [dot, dot] => .up
  | s => .name s

def endsInSlash (p : Path) : Bool := p.bytes.getLast? == some slash

/-- The steps of following a path from where it begins, but for the claim of a trailing slash. -/
def baseSteps (p : Path) : List Step :=
  (segments p.bytes).filterMap fun s => if s.isEmpty then none else some (step s)

/-- The steps of following a path. A trailing slash claims that the path ends at a directory. -/
def steps (p : Path) : List Step := p.baseSteps ++ if p.endsInSlash then [.slash] else []

end Path

end ResourceArchive
