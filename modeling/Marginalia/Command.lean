import Marginalia.Files
import Marginalia.Search
import Marginalia.Table
/-!
The commands of the program and what each prints. Only `annotate` without a dry run and `create`
change a file; a command that fails has printed nothing but what a scan says on its way.
-/

namespace Marginalia

inductive Command where
  | analyze (file : Path) (fileType : Option Text) (verbose : Bool)
  | search (file : Path) (term : Text)
  | annotate (file : Path) (line : Nat) (kind : CommentKind) (fileType : Option Text) (note : Text)
      (dryRun : Bool)
  | scan (root : Path) (options : ScanOptions) (filespec : Option Text) (verbose : Bool)
  | create (directory : Path) (name : Text) (fileType : FileType)
  | languages

/-- What a command prints, piece by piece, what it warns of, and why it failed, if it did. -/
structure Outcome where
  out : List Text
  warnings : List Text
  failure : Option Failure

namespace Outcome

def ofExcept : Except Failure (List Text) → Outcome
  | .ok out => ⟨out, [], none⟩
  | .error e => ⟨[], [], some e⟩

end Outcome

namespace Command

def programName : Text := "linemark".toList

def version : Text := "0.3.0".toList

def banner (ink : Ink) : Text :=
  Text.line [ink.paint .banner programName, [' '], ink.paint .figure ('v' :: version)]

/-- The name of a file's type: the one that is given, or else the end of the file's name. -/
def typeName (file : Path) (given : Option Text) : Text := (given.or file.token?).getD []

/-- The note that a request on the command line asks for. -/
def requestFor (file : Path) (line : Nat) (kind : CommentKind) (fileType : Option Text)
    (note : Text) : Request :=
  ⟨typeName file fileType, kind, note, line⟩

def details (token : Text) (r : Report) : Text :=
  Text.line [] ++
  Text.line ["Code lines: ".toList, Text.decimal r.counts.code] ++
  Text.line ["Comment prefixes: ".toList, Text.spaced (CommentRule.ofToken token).openings]

def analysis (ink : Ink) (file : Path) (token : Text) (verbose : Bool) (lines : List Text) :
    List Text :=
  let r := Report.ofToken token lines
  [banner ink, Text.line [ink.paint .heading "File Analysis:".toList, [' '], file.display, ['\n']],
    r.render] ++ if verbose then [details token r] else []

def added (ink : Ink) (file : Path) (r : Request) : Text :=
  Text.line [ink.paint .done "Added".toList, [' '], r.kind.label, " comment before line ".toList,
    Text.decimal r.line, " of ".toList, file.display]

def languageRow (name token family openings block : Text) : Text :=
  Text.line [Text.spaced [Text.left 12 name, Text.left 8 token, Text.left 15 family,
    Text.left 16 openings, block]]

def languageOf (f : Option FileType) : Text :=
  let rule := CommentRule.ofType f
  let block := (rule.block.map fun (first, last) => first ++ " ... ".toList ++ last).getD ['-']
  languageRow (FileType.shownTitle f) (FileType.shownToken f) (FileType.shownFamily f)
    (Text.spaced rule.openings) block

/-- The known types, and last what becomes of all others. -/
def languageTable : List Text :=
  languageRow "Type".toList "Token".toList "Family".toList "Prefixes".toList "Block".toList ::
    (FileType.all.map some ++ [none]).map languageOf

/-- The path of a new file: its name without blanks around it, and the ending of its type. -/
def newFile (directory : Path) (name : Text) (f : FileType) : Path :=
  directory.join (.ofText (Text.trim name ++ f.ending))

variable {m : Type → Type} [Monad m]

def performAnnotate (fs : Files m) (ink : Ink) (file : Path) (r : Request) (dryRun : Bool) :
    ExceptT Failure m (List Text) := do
  if dryRun then
    let s ← fs.annotated file r
    return s.lines.map (Text.line [·])
  else
    let _ ← fs.annotate file r
    return [added ink file r]

def performScan (fs : Files m) (ink : Ink) (p : Path) (o : ScanOptions) (filespec : Option Text)
    (verbose : Bool) : m Outcome := do
  let opening := [banner ink, Text.line ["Starting source code analysis...".toList]]
  match ← (fs.scan p o filespec).run with
  | .error e => return ⟨opening, [], some e⟩
  | .ok (root, r) =>
    let progress := if verbose then r.progress else []
    match r.outcome with
    | .error e => return ⟨opening ++ progress, r.warningLines ink, some e⟩
    | .ok s =>
      let table := Table.render ink Table.defaultWidth root s
      return ⟨opening ++ progress ++ [table], r.warningLines ink, none⟩

def performCreate (fs : Files m) (directory : Path) (name : Text) (f : FileType) :
    ExceptT Failure m (List Text) := do
  if Text.trim name = [] then throw .emptyFileName
  else
    fs.makeEmpty (newFile directory name f)
    return [Text.line ["File created successfully: ".toList, (newFile directory name f).display]]

def perform (fs : Files m) (ink : Ink) : Command → m Outcome
  | analyze file fileType verbose =>
    Outcome.ofExcept <$> (do
      let lines ← fs.readLines file
      return analysis ink file (typeName file fileType) verbose lines).run
  | search file term =>
    Outcome.ofExcept <$> (do
      let lines ← fs.readLines file
      let found ← Marginalia.search lines term
      return [found.render]).run
  | annotate file line kind fileType note dryRun =>
    Outcome.ofExcept <$>
      (performAnnotate fs ink file (requestFor file line kind fileType note) dryRun).run
  | scan root options filespec verbose => performScan fs ink root options filespec verbose
  | create directory name f => Outcome.ofExcept <$> (performCreate fs directory name f).run
  | languages => return ⟨languageTable, [], none⟩

end Command

end Marginalia
