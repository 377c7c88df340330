import Marginalia.LineReader
import Marginalia.Summary
import Marginalia.Text.Ink
import Marginalia.Tree.Disk
/-!
Scanning a directory: every file below it that the options let in gets a report. What cannot be read
is passed over with a warning; only too many files end a scan.
-/

namespace Marginalia

structure ScanOptions where
  /-- Directories that are passed over, besides the usual ones. -/
  ignored : List Text := []
  maxDepth : Nat := 100
  maxFiles : Nat := 1000000
  /-- Leaves out everything below the root's own entries. -/
  flat : Bool := false
  pattern : Option Pattern := none
deriving Repr

namespace Scan

/-- Directories that hold what was built or fetched, and not what was written. -/
def usuallyIgnored : List Text :=
  ["target".toList, "node_modules".toList, "build".toList, "dist".toList, ".git".toList,
    "venv".toList, "__pycache__".toList, "bin".toList, "obj".toList]

/-- An entry of the ignore list may be a path of several names; an empty one ignores everything. -/
def isIgnored (o : ScanOptions) (directory : Path) : Bool :=
  (match directory.fileName?.bind Utf8.decode? with
    | some name => usuallyIgnored.contains name
    | none => false) ||
    o.ignored.any fun entry => directory.endsIn (Path.ofText entry)

/-- What a pattern is held against besides a file's name: the way to it from the root of the scan,
with every backslash taken for a slash. -/
def relativeText (place : Place) : Option Text :=
  (Utf8.decode? ([Path.slash].intercalate place)).map (·.map fun c => if c = '\\' then '/' else c)

/-- A name or a way that is not a text matches no pattern. -/
def isWanted (o : ScanOptions) (root : Path) (place : Place) : Bool :=
  match o.pattern with
  | none => true
  | some pattern =>
    let name := ((Disk.pathBelow root place).fileName?.bind Utf8.decode?)
    (name.map pattern.covers).getD false || ((relativeText place).map pattern.covers).getD false

/-- What a scan comes upon: a file, or something that it has to leave out. -/
inductive Visit where
  | file (place : Place) (bytes : Except SystemError Bytes)
  | tooDeep (place : Place)
  | noMetadata (place : Place) (e : SystemError)
  | noListing (place : Place) (e : SystemError)

def visitFile (o : ScanOptions) (root : Path) (place : Place) (bytes : Except SystemError Bytes) :
    List Visit :=
  if isWanted o root place then [.file place bytes] else []

/-- Nothing is reached by a path that is too long, or in a directory that may not be searched. -/
def reached {α : Type} (p : Path) (mayReach : Bool) (result : Except SystemError α) :
    Except SystemError α :=
  if p.bytes.length ≥ Walk.pathLimit then .error .nameTooLong
  else if mayReach then result
  else .error .denied

mutual

/-- The visits to a node at a depth, in the order of the listings. The depth counts first, then
whether the directory can be reached, whether it is ignored, and whether it can be listed. -/
def visits (o : ScanOptions) (root : Path) (depth : Nat) (mayReach : Bool) (place : Place) :
    Node → List Visit
  | .file mode data =>
    visitFile o root place
      (reached (Disk.pathBelow root place) mayReach (Disk.read (.file mode data)))
  | .directory mode entries =>
    if depth > o.maxDepth then [.tooDeep place]
    else
      match reached (Disk.pathBelow root place) mayReach (.ok ()) with
      | .error e => [.noMetadata place e]
      | .ok () =>
        if isIgnored o (Disk.pathBelow root place) then []
        else if !Mode.mayRead mode then [.noListing place .denied]
        else visitsIn o root depth (Mode.maySearch mode) place entries
  | .symlink _ => []
  | .socket _ => []
termination_by structural n => n

def visitsIn (o : ScanOptions) (root : Path) (depth : Nat) (mayReach : Bool) (place : Place) :
    List (Name × Node) → List Visit
  | [] => []
  | entry :: entries =>
    visitEntry o root depth mayReach place entry ++ visitsIn o root depth mayReach place entries
termination_by structural entries => entries

/-- A flat scan leaves out the directories among the entries. -/
def visitEntry (o : ScanOptions) (root : Path) (depth : Nat) (mayReach : Bool) (place : Place) :
    Name × Node → List Visit
  | (name, n) =>
    if o.flat && n.isDirectory then []
    else visits o root (depth + 1) mayReach (place ++ [name]) n
termination_by structural entry => entry

end

/-- The visits of a scan, by what its root's path leads to. -/
def visitsFrom (o : ScanOptions) (root : Path) : Except SystemError Node → List Visit
  | .ok n => visits o root 0 true [] n
  | .error e => [.noMetadata [] e]

/-- The visits up to the file that is one too many, and whether there is one. -/
def upTo : Nat → List Visit → List Visit × Bool
  | _, [] => ([], false)
  | 0, .file .. :: _ => ([], true)
  | limit + 1, .file place bytes :: rest =>
    let (before, exceeded) := upTo limit rest
    (.file place bytes :: before, exceeded)
  | limit, visit :: rest =>
    let (before, exceeded) := upTo limit rest
    (visit :: before, exceeded)

/-- The report on a file, whose name tells its type. -/
def reportOn (p : Path) (bytes : Bytes) : Report :=
  Report.ofLines (FileType.ofPath? p) (LineReader.linesOf bytes)

def Visit.report? (root : Path) : Visit → Option (Place × Report)
  | file place (.ok bytes) => some (place, reportOn (Disk.pathBelow root place) bytes)
  | _ => none

/-- The warning of a visit, for what could not be read. -/
def Visit.warning? (o : ScanOptions) (root : Path) : Visit → Option Text
  | file _ (.ok _) => none
  | file place (.error e) =>
    some (Failure.file .reading (Disk.pathBelow root place) (.system e)).message
  | tooDeep place =>
    some ("Maximum directory depth (".toList ++ Text.decimal o.maxDepth ++ ") reached at ".toList ++
      (Disk.pathBelow root place).display)
  | noMetadata place e =>
    some ("Error reading metadata for ".toList ++ (Disk.pathBelow root place).display ++
      ": ".toList ++ e.message)
  | noListing place e =>
    some ("Error reading directory ".toList ++ (Disk.pathBelow root place).display ++ ": ".toList ++
      e.message)

/-- Files in the order of their places, name by name. -/
def sorted (files : List (Place × Report)) : List (Place × Report) :=
  files.mergeSort fun a b => decide (a.1 ≤ b.1)

def summary (o : ScanOptions) (root : Path) (visits : List Visit) : Summary where
  files := (sorted (visits.filterMap (·.report? root))).map fun (place, r) =>
    (Disk.pathBelow root place, r)
  warnings := (visits.filterMap (·.warning? o root)).length

/-- What is said about a file while the scan goes on. -/
def progress (p : Path) (r : Report) : Text :=
  Text.line ["File: ".toList, p.display] ++
  Text.line ["  Type: ".toList, FileType.shownToken r.fileType] ++
  Text.line ["  Lines: ".toList, Text.decimal r.counts.total] ++
  Text.line ["  Blank lines: ".toList, Text.decimal r.counts.blank] ++
  Text.line ["  Comment lines: ".toList, Text.decimal r.counts.comment] ++
  Text.line ["  TODO/FIXME: ".toList, Text.decimal r.counts.todo, ['/'],
    Text.decimal r.counts.fixme] ++
  Text.line []

end Scan

/-- What a scan says on its way and what it comes to. -/
structure ScanResult where
  progress : List Text
  warnings : List Text
  outcome : Except Failure Summary

/-- The warnings as printed, one a line. -/
def ScanResult.warningLines (r : ScanResult) (ink : Ink) : List Text :=
  r.warnings.map fun words => Text.line [ink.paint .alarm "Warning".toList, ": ".toList, words]

/-- Scans what a canonical path leads to. -/
def scan (o : ScanOptions) (root : Path) (found : Except SystemError Node) : ScanResult :=
  let (visits, exceeded) := Scan.upTo o.maxFiles (Scan.visitsFrom o root found)
  { progress := visits.filterMap fun v => (v.report? root).map fun (place, r) =>
      Scan.progress (Disk.pathBelow root place) r
    warnings := visits.filterMap (·.warning? o root)
    outcome :=
      if exceeded then .error (.tooManyEntries o.maxFiles) else .ok (Scan.summary o root visits) }

end Marginalia
