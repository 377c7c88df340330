import Marginalia.Path
/-!
A tree of files: directories with named entries, files with contents, links and sockets. A node is
found by its place, the names that lead to it from the top.
-/

namespace Marginalia

/-- The names that lead from the top of a tree to a node. -/
abbrev Place := List Name

/-- Modes hold the permission bits; the owner's three decide here. -/
inductive Node where
  | file (mode : Nat) (data : Bytes)
  | directory (mode : Nat) (entries : List (Name × Node))
  | symlink (target : Path)
  | socket (mode : Nat)
deriving BEq, Repr

namespace Mode

def mayRead (mode : Nat) : Bool := mode.testBit 8

def mayWrite (mode : Nat) : Bool := mode.testBit 7

/-- To search a directory is to reach what is in it. -/
def maySearch (mode : Nat) : Bool := mode.testBit 6

end Mode

namespace Node

def isDirectory : Node → Bool
  | directory .. => true
  | _ => false

def isSymlink : Node → Bool
  | symlink _ => true
  | _ => false

/-- A link has no mode of its own. -/
def mode? : Node → Option Nat
  | file mode _ | directory mode _ | socket mode => some mode
  | symlink _ => none

/-- What is at a place; links on the way are not followed. -/
def at? : Place → Node → Option Node
  | [], n => some n
  | name :: rest, directory _ entries => (entries.lookup name).bind (at? rest)
  | _ :: _, _ => none

/-- Changes the node at a place, if there is one. -/
def modifyAt (f : Node → Node) : Place → Node → Node
  | [], n => f n
  | name :: rest, directory mode entries =>
    directory mode (entries.map fun (key, child) =>
      if key = name then (key, modifyAt f rest child) else (key, child))
  | _ :: _, n => n

/-- Puts a node under a name: in the place of the entry of that name, or else at the end. -/
def putEntry (name : Name) (child : Node) (entries : List (Name × Node)) : List (Name × Node) :=
  if (entries.lookup name).isSome then
    entries.map fun (key, old) => if key = name then (key, child) else (key, old)
  else entries ++ [(name, child)]

def dropEntry (name : Name) (entries : List (Name × Node)) : List (Name × Node) :=
  entries.filter (·.1 ≠ name)

/-- Changes the entries of a directory. -/
def mapEntries (f : List (Name × Node) → List (Name × Node)) : Node → Node
  | directory mode entries => directory mode (f entries)
  | n => n

def entries : Node → List (Name × Node)
  | directory _ entries => entries
  | _ => []

/-- Puts a node into the directory at a place. -/
def put (top : Node) (directory : Place) (name : Name) (child : Node) : Node :=
  top.modifyAt (mapEntries (putEntry name child)) directory

/-- Takes an entry out of the directory at a place. -/
def drop (top : Node) (directory : Place) (name : Name) : Node :=
  top.modifyAt (mapEntries (dropEntry name)) directory

mutual

/-- The part of a tree whose paths, with a slash before each name, have fewer than `room` bytes. -/
def cut (room : Nat) : Node → Node
  | directory mode entries => directory mode (cutEntries room entries)
  | n => n
termination_by structural n => n

def cutEntries (room : Nat) : List (Name × Node) → List (Name × Node)
  | [] => []
  | entry :: rest => cutEntry room entry ++ cutEntries room rest
termination_by structural entries => entries

def cutEntry (room : Nat) : Name × Node → List (Name × Node)
  | (name, n) => if name.length + 1 < room then [(name, cut (room - (name.length + 1)) n)] else []
termination_by structural entry => entry

end

end Node

end Marginalia
