import Marginalia.Scan
import Marginalia.SourceText
/-!
What the program asks of a file system, and what it does with files through that. The tree of
`Disk` answers in memory; any other file system can answer too.
-/

namespace Marginalia

structure Files (m : Type → Type) where
  contents : Path → m (Except Fault Bytes)
  /-- If there is anything at a path, its canonical path, which is absolute and without links or
  `..`, and what is found by that one. -/
  explore : Path → m (Option (Path × Except SystemError Node))
  save : Path → Bytes → m (Except Fault Unit)
  create : Path → m (Except Fault Unit)

/-- A file system that is a tree in memory. -/
def Disk.files : Files (StateM Disk) where
  contents p := return (← get).contents p
  explore p := return (← get).explore p
  save p data := modifyGet (·.save p data)
  create p := modifyGet (·.create p)

namespace Files

variable {m : Type → Type} [Monad m]

/-- The lines of a file for reading only: what is not UTF-8 is replaced. -/
def readLines (fs : Files m) (p : Path) : ExceptT Failure m (List Text) := do
  match ← fs.contents p with
  | .ok bytes => return LineReader.linesOf bytes
  | .error e => throw (.file .reading p e)

/-- The text of a file for writing back: what is not UTF-8 is refused. -/
def readSource (fs : Files m) (p : Path) : ExceptT Failure m SourceText := do
  match ← fs.contents p with
  | .ok bytes =>
    match Utf8.decode? bytes with
    | some content => return .parse content
    | none => throw (.file .reading p .notUtf8)
  | .error e => throw (.file .reading p e)

def saveSource (fs : Files m) (p : Path) (s : SourceText) : ExceptT Failure m Unit := do
  match ← fs.save p (Utf8.encode s.render) with
  | .ok () => return
  | .error e => throw (.file .saving p e)

def makeEmpty (fs : Files m) (p : Path) : ExceptT Failure m Unit := do
  match ← fs.create p with
  | .ok () => return
  | .error e => throw (.file .creating p e)

/-- The source of a file with a note added, not yet saved. -/
def annotated (fs : Files m) (p : Path) (r : Request) : ExceptT Failure m SourceText := do
  let s ← fs.readSource p
  s.annotate r

/-- Adds a note to a file. -/
def annotate (fs : Files m) (p : Path) (r : Request) : ExceptT Failure m SourceText := do
  let s ← fs.annotated p r
  fs.saveSource p s
  return s

/-- The pattern of a file specification. -/
def patternOf (given : Option Text) : Except Failure (Option Pattern) :=
  match given with
  | none => .ok none
  | some t =>
    match Pattern.parse t with
    | .ok pattern => .ok (some pattern)
    | .error fault => .error (.badPattern t fault)

/-- Scans what is at a path. A path that leads nowhere is reported before a wrong pattern. -/
def scan (fs : Files m) (p : Path) (o : ScanOptions) (filespec : Option Text) :
    ExceptT Failure m (Path × ScanResult) := do
  match ← fs.explore p with
  | none => throw (.file .finding p .missing)
  | some (root, found) =>
    let pattern ← patternOf filespec
    return (root, Marginalia.scan { o with pattern } root found)

end Files

end Marginalia
