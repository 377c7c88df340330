import Marginalia.Tree.Walk
/-!
A tree of files as a program meets it that works in one of its directories: reading a file, saving
one in place of another, making a new one. Whatever fails leaves the tree as it was.
-/

namespace Marginalia

/-- All files there are, from the root directory on, and the place of the directory that a program
works in. Paths set out from there, or from the root if a slash opens them. -/
structure Disk where
  home : Place
  top : Node
deriving BEq, Repr

namespace Disk

/-- The path of a place below some directory. -/
def pathBelow (directory : Path) (place : Place) : Path :=
  place.foldl (fun p name => p.join ⟨name⟩) directory

/-- The absolute path of a place. -/
def pathOf (place : Place) : Path := pathBelow ⟨[Path.slash]⟩ place

def checkBytes (p : Path) : Except Fault Unit :=
  if (0 : UInt8) ∈ p.bytes then .error .zeroByte else .ok ()

/-- The place that a path leads to, links followed, and what is there. -/
def find (d : Disk) (p : Path) : Except SystemError (Place × Node) := do
  let place ← d.top.resolve d.home p
  match d.top.at? place with
  | some n => return (place, n)
  | none => .error .noEntry

/-- The same for a path of any bytes. -/
def lookUp (d : Disk) (p : Path) : Except Fault (Place × Node) := do
  checkBytes p
  (d.find p).mapError .system

/-- The bytes of a file. A directory can be opened but not read, a socket not even opened, and a
link is never where a path leads. -/
def read : Node → Except SystemError Bytes
  | .file mode data => if Mode.mayRead mode then .ok data else .error .denied
  | .directory mode _ => .error (if Mode.mayRead mode then .isDirectory else .denied)
  | .socket mode => .error (if Mode.mayRead mode then .noDevice else .denied)
  | .symlink _ => .error .noEntry

def contents (d : Disk) (p : Path) : Except Fault Bytes := do
  let (_, n) ← d.lookUp p
  (read n).mapError .system

/-- The place that a path's first name is looked up at, and the segments from that name on. -/
def outset (d : Disk) (p : Path) : Place × List Bytes :=
  Walk.upToName (Walk.origin p d.home) p.segments

/-- The absolute path without links or `..` of what a path leads to. Names are looked up by the
absolute paths of their places, which must not be too long; where there is none, nothing is looked
up at all. If the way from the root cannot be gone, the path is left as it is given. -/
def canonical (d : Disk) (p : Path) : Path :=
  let (place, rest) := d.outset p
  if rest = [] then pathOf place
  else
    match Walk.within (d.top.cut Walk.pathLimit) Walk.linkLimit [] (place ++ rest) with
    | .ok stop => pathOf stop
    | .error _ => p

/-- The canonical path of something, and what is found by it. -/
def explore (d : Disk) (p : Path) : Option (Path × Except SystemError Node) :=
  match d.lookUp p with
  | .ok _ => some (d.canonical p, (d.find (d.canonical p)).map (·.2))
  | .error _ => none

def put (d : Disk) (place : Place) (name : Name) (n : Node) : Disk :=
  { d with top := d.top.put place name n }

def drop (d : Disk) (place : Place) (name : Name) : Disk :=
  { d with top := d.top.drop place name }

/-- The mode of a new file. -/
def newMode : Nat := 0o644

/-- The tree with an empty file at a path where nothing is yet, not even a dangling link. -/
def withNew (d : Disk) (p : Path) : Except SystemError Disk := do
  let slot ← d.top.slot d.home p
  if slot.isMark then .error .alreadyThere
  else if slot.slashed then .error .isDirectory
  else
    match ← d.top.occupant slot with
    | some _ => .error .alreadyThere
    | none =>
      let place ← d.top.writablePlace slot
      return d.put place slot.name (.file newMode [])

/-- Makes an empty file. -/
def create (d : Disk) (p : Path) : Except Fault Unit × Disk :=
  match checkBytes p, d.withNew p with
  | .error e, _ => (.error e, d)
  | .ok (), .error e => (.error (.system e), d)
  | .ok (), .ok made => (.ok (), made)

/-- The mode of a scratch file, which nobody else may look into. -/
def scratchMode : Nat := 0o600

def scratchStem : Name := Utf8.encode ".tmpXXXXXX".toList

/-- A name that no entry has: it is longer than all of them together. -/
def freshName (entries : List (Name × Node)) : Name :=
  if (entries.lookup scratchStem).isNone then scratchStem
  else scratchStem ++ List.replicate (entries.flatMap (·.1)).length 0x58

/-- The absolute path of a scratch file, by which it is made. -/
def scratchPath (d : Disk) (directory : Path) : Path :=
  (pathOf d.home).join (directory.join ⟨scratchStem⟩)

/-- A free slot for a scratch file in a directory. -/
def scratchSlot (d : Disk) (directory : Path) : Except Fault (Place × Name) := do
  checkBytes directory
  let slot ← (d.top.slot d.home (d.scratchPath directory)).mapError .system
  let _ ← (d.top.occupant slot).mapError .system
  let place ← (d.top.writablePlace slot).mapError .system
  let (_, entries) ← (d.top.listing slot.directory).mapError .system
  return (place, freshName entries)

/-- Moves the file in an entry to the slot of a path, over anything but a directory. -/
def rename (d : Disk) (place : Place) (name : Name) (p : Path) : Except SystemError Disk := do
  if (0 : UInt8) ∈ p.bytes then .error .invalid
  else
    let slot ← d.top.slot d.home p
    if slot.isMark then .error .busy
    else
      let old ← d.top.occupant slot
      if slot.slashed then .error .notDirectory
      else
        let target ← d.top.writablePlace slot
        if (old.map Node.isDirectory).getD false then .error .isDirectory
        else
          match d.top.at? (place ++ [name]) with
          | some n => return (d.drop place name).put target slot.name n
          | none => .error .noEntry

/-- The mode that a saved file gets: the one of whatever its path led to before. -/
def savedMode (d : Disk) (p : Path) : Nat :=
  match d.lookUp p with
  | .ok (_, n) => n.mode?.getD scratchMode
  | .error _ => scratchMode

/-- Writes a file anew: into a scratch file beside it, which then takes its name. A link is replaced
and not followed. -/
def save (d : Disk) (p : Path) (data : Bytes) : Except Fault Unit × Disk :=
  match d.scratchSlot p.directory with
  | .error e => (.error (.scratch e (d.scratchPath p.directory)), d)
  | .ok (place, name) =>
    let written := d.put place name (.file (d.savedMode p) data)
    match written.rename place name p with
    | .ok saved => (.ok (), saved)
    | .error e => (.error (.system e), written.drop place name)

end Disk

end Marginalia
