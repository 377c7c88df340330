import Marginalia.Text.Utf8
/-!
Paths as the system writes them: names between slashes. A path keeps its bytes, and two paths that
differ in repeated slashes or in a `.` on the way have the same components.
-/

namespace Marginalia

/-- The name of an entry in a directory. -/
abbrev Name := Bytes

/-- A path as it was given. -/
structure Path where
  bytes : Bytes
deriving DecidableEq, Repr

namespace Path

def ofText (t : Text) : Path := ⟨Utf8.encode t⟩

/-- The path in a message: ill-formed bytes are shown by replacement characters. -/
def display (p : Path) : Text := Utf8.decodeLossy p.bytes

def slash : UInt8 := 0x2F

/-- What stands between the slashes, empty stretches included. -/
def segments (p : Path) : List Bytes := p.bytes.splitOn slash

def current : Bytes := [0x2E]

def parentName : Bytes := [0x2E, 0x2E]

/-- Where a path sets out from. -/
inductive Origin where
  | root
  | current
  | unmarked
deriving DecidableEq, Repr

/-- The origin of a path and the segments after its mark: a path may open with a slash, or with `.`
in the place of a name. -/
def split (p : Path) : Origin × List Bytes :=
  match p.segments with
  | [] => (.unmarked, [])
  | first :: rest =>
    if first = [] ∧ rest ≠ [] then (.root, rest)
    else if first = Path.current then (.current, rest)
    else (.unmarked, first :: rest)

/-- A segment that names nothing: a stretch between two slashes, or a `.` on the way. -/
def isIdle (segment : Bytes) : Bool := segment == [] || segment == current

def dropIdleEnd (segments : List Bytes) : List Bytes := (segments.reverse.dropWhile isIdle).reverse

inductive Component where
  | root
  | current
  | parent
  | name (name : Name)
deriving DecidableEq, Repr

def Origin.components : Origin → List Component
  | .root => [.root]
  | .current => [.current]
  | .unmarked => []

def component (segment : Bytes) : Component :=
  if segment = parentName then .parent else .name segment

def components (p : Path) : List Component :=
  p.split.1.components ++ (p.split.2.filter (!isIdle ·)).map component

/-- A path of an origin and segments; a lone root keeps its slash. -/
def assemble (origin : Origin) (body : List Bytes) : Path :=
  match origin with
  | .root => ⟨slash :: [slash].intercalate body⟩
  | .current => ⟨[slash].intercalate (current :: body)⟩
  | .unmarked => ⟨[slash].intercalate body⟩

/-- The name a path ends in. A path that ends in `..`, and one of no names, has none. -/
def fileName? (p : Path) : Option Name :=
  match (dropIdleEnd p.split.2).getLast? with
  | none => none
  | some segment => if segment = parentName then none else some segment

/-- The text after the last dot of the file name, if that name is a text. -/
def token? (p : Path) : Option Text :=
  (p.fileName?.bind Utf8.decode?).bind fun name =>
    if '.' ∈ name then some (name.reverse.takeWhile (· ≠ '.')).reverse else none

/-- The path without its last component, empty for a single one. -/
def parent (p : Path) : Path :=
  match dropIdleEnd p.split.2 with
  | [] => ⟨[]⟩
  | body => assemble p.split.1 (dropIdleEnd body.dropLast)

/-- The directory that the path's entry is in, as a path that can be opened. -/
def directory (p : Path) : Path := if p.parent.bytes = [] then ⟨current⟩ else p.parent

def isAbsolute (p : Path) : Bool := p.bytes.head? == some slash

/-- One path below another; a second path from the root stands alone. -/
def join (p q : Path) : Path :=
  if q.isAbsolute then q
  else if p.bytes = [] ∨ p.bytes.getLast? = some slash then ⟨p.bytes ++ q.bytes⟩
  else ⟨p.bytes ++ slash :: q.bytes⟩

/-- The last components of `p` are those of `q`; every path ends in the empty one. -/
def endsIn (p q : Path) : Bool := q.components.isSuffixOf p.components

/-- Drops segments up to the `n`-th name and the idle ones after it. -/
def dropNames : Nat → List Bytes → List Bytes
  | 0, body => body.dropWhile isIdle
  | n + 1, body => dropNames n ((body.dropWhile isIdle).drop 1)

/-- What follows `base` in a path that begins with its components. -/
def relativeTo? (p base : Path) : Option Path :=
  if base.components.isPrefixOf p.components then
    if base.components = [] then some (assemble p.split.1 (dropIdleEnd p.split.2))
    else
      let names := base.components.length - p.split.1.components.length
      some ⟨[slash].intercalate (dropIdleEnd (dropNames names p.split.2))⟩
  else none

end Path

end Marginalia
