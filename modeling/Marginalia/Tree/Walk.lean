import Marginalia.Failure
import Marginalia.Tree.Node
/-!
Finding what a path leads to. Names are looked up one after another in a tree, links are followed,
and every directory on the way has to allow it.
-/

namespace Marginalia

namespace Walk

/-- The bytes that a single name may have. -/
def nameLimit : Nat := 255

/-- The bytes that a whole path has to stay below. -/
def pathLimit : Nat := 4096

/-- The links that are followed before a path is taken to go round in circles. -/
def linkLimit : Nat := 40

/-- The entry of a name in a directory that may be searched. -/
def enter (mode : Nat) (entries : List (Name × Node)) (name : Name) : Except SystemError Node :=
  if !Mode.maySearch mode then .error .denied
  else if name.length > nameLimit then .error .nameTooLong
  else
    match entries.lookup name with
    | some n => .ok n
    | none => .error .noEntry

/-- The place of the directory above another; above the top there is the top itself. -/
def above (place : Place) : Place := place.dropLast

/-- How a walk goes on at a link: from the place it is met at, by the link's target and the segments
that are left. -/
abbrev Jump := Place → Path → List Bytes → Except SystemError Place

/-- Walks along segments. A segment between two slashes asks only for a directory. -/
def along (top : Node) (jump : Jump) : Place → List Bytes → Except SystemError Place
  | place, [] => .ok place
  | place, segment :: rest =>
    match top.at? place with
    | some (.directory mode entries) =>
      if segment = [] then along top jump place rest
      else if segment = Path.current ∨ segment = Path.parentName then
        if !Mode.maySearch mode then .error .denied
        else if segment = Path.current then along top jump place rest
        else along top jump (above place) rest
      else
        match enter mode entries segment with
        | .error e => .error e
        | .ok (.symlink target) => jump place target rest
        | .ok _ => along top jump (place ++ [segment]) rest
    | _ => .error .notDirectory

/-- Where a path sets out that is met at a place: at the top, if a slash opens it. -/
def origin (p : Path) (place : Place) : Place := if p.isAbsolute then [] else place

/-- The place that the segments before the first name lead to, and the segments from that name
on. -/
def upToName : Place → List Bytes → Place × List Bytes
  | place, [] => (place, [])
  | place, segment :: rest =>
    if Path.isIdle segment then upToName place rest
    else if segment = Path.parentName then upToName (above place) rest
    else (place, segment :: rest)

/-- Walks along segments with at most `links` links followed. -/
def within (top : Node) : Nat → Place → List Bytes → Except SystemError Place
  | 0 => along top fun _ _ _ => .error .tooManyLinks
  | links + 1 => along top fun place target rest =>
      within top links (origin target place) (target.segments ++ rest)

end Walk

/-- The entry that a path names, whether it exists or not: the place of its directory, its name, and
whether slashes follow the name. -/
structure Slot where
  directory : Place
  name : Name
  slashed : Bool
deriving DecidableEq, Repr

/-- The path ends in `.` or `..`, or is the root: there is no entry of its own. -/
def Slot.isMark (s : Slot) : Bool :=
  s.name == [] || s.name == Path.current || s.name == Path.parentName

namespace Node

def checkLength (p : Path) : Except SystemError Unit :=
  if p.bytes = [] then .error .noEntry
  else if p.bytes.length ≥ Walk.pathLimit then .error .nameTooLong
  else .ok ()

/-- What a path leads to that is met at the place `here`. -/
def resolve (top : Node) (here : Place) (p : Path) : Except SystemError Place := do
  checkLength p
  Walk.within top Walk.linkLimit (Walk.origin p here) p.segments

/-- The mode and the entries of the directory at a place. -/
def listing (top : Node) (place : Place) : Except SystemError (Nat × List (Name × Node)) :=
  match top.at? place with
  | some (.directory mode entries) => .ok (mode, entries)
  | _ => .error .notDirectory

/-- The slot of a path, in a directory that may be searched. The slashes at the end of a path belong
to its last name; a path of slashes only has an empty name. -/
def slot (top : Node) (here : Place) (p : Path) : Except SystemError Slot := do
  checkLength p
  let named := (p.segments.reverse.dropWhile (· == [])).reverse
  let place ← Walk.within top Walk.linkLimit (Walk.origin p here) named.dropLast
  let (mode, _) ← top.listing place
  if Mode.maySearch mode then return ⟨place, named.getLastD [], named.length < p.segments.length⟩
  else .error .denied

/-- What stands in a slot, or that it is free. -/
def occupant (top : Node) (s : Slot) : Except SystemError (Option Node) := do
  let (mode, entries) ← top.listing s.directory
  match Walk.enter mode entries s.name with
  | .ok n => return some n
  | .error .noEntry => return none
  | .error e => .error e

/-- The place of the slot's directory, if entries may be made in it. -/
def writablePlace (top : Node) (s : Slot) : Except SystemError Place := do
  let (mode, _) ← top.listing s.directory
  if Mode.mayWrite mode && Mode.maySearch mode then return s.directory else .error .denied

end Node

end Marginalia
