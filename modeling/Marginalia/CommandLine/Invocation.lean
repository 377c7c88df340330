import Marginalia.Command
import Marginalia.CommandLine.Grammar
import Marginalia.CommandLine.Number
/-!
The grammars of the commands, and the reading of a whole command line.
-/

namespace Marginalia.Invocation

/-- A path may be of any bytes. -/
def takePath (value : Bytes) : Except Refusal Path :=
  if value = [] then .error .empty else .ok ⟨value⟩

def takeText (value : Bytes) : Except Refusal Text :=
  match Utf8.decode? value with
  | some t => .ok t
  | none => .error .notUtf8

def takeNumber (value : Bytes) : Except Refusal Nat := do
  (Number.parse (← takeText value)).mapError (.because ·.text)

def takeKind (value : Bytes) : Except Refusal CommentKind := do
  (CommentKind.parse (← takeText value)).mapError (.because ·.message)

def takeFileType (value : Bytes) : Except Refusal FileType := do
  (FileType.require (← takeText value)).mapError (.because ·.message)

/-- A value that is taken into a field which is set once. -/
def into {δ α : Type} (take : Bytes → Except Refusal α) (set : δ → Option α → δ) : Taker δ :=
  fun value draft => (take value).map fun a => set draft (some a)

def fileOperand {δ : Type} (shown : String) (set : δ → Option Path → δ) : OperandRule δ :=
  ⟨shown.toList, into takePath set⟩

def textOperand {δ : Type} (shown : String) (set : δ → Option Text → δ) : OperandRule δ :=
  ⟨shown.toList, into takeText set⟩

/-- An option with a value that may be given once. -/
def valueOption {δ α : Type} (long : String) (short : Option Char) (shown : String)
    (take : Bytes → Except Refusal α) (get : δ → Option α) (set : δ → Option α → δ) :
    OptionRule δ :=
  ⟨long.toList, short, shown.toList, fun draft => (get draft).isSome, .value (into take set)⟩

def switchOption {δ : Type} (long : String) (short : Option Char) (get : δ → Bool) (set : δ → δ) :
    OptionRule δ :=
  ⟨long.toList, short, "--".toList ++ long.toList, get, .switch set⟩

def typeOption {δ α : Type} (take : Bytes → Except Refusal α) (get : δ → Option α)
    (set : δ → Option α → δ) : OptionRule δ :=
  valueOption "type" (some 't') "--type <FILE_TYPE>" take get set

/-- What is still missing of a command. -/
def required {α : Type} : Option α → Except Halt α
  | some a => .ok a
  | none => .error (.error .missingRequired)

structure AnalyzeDraft where
  file : Option Path := none
  fileType : Option Text := none
  verbose : Bool := false

def analyzeGrammar : Grammar AnalyzeDraft where
  options := [
    typeOption takeText (·.fileType) ({ · with fileType := · }),
    switchOption "verbose" (some 'v') (·.verbose) ({ · with verbose := true })]
  operands := [fileOperand "<FILE>" ({ · with file := · })]

def readAnalyze (words : List Bytes) : Except Halt Command := do
  let d ← analyzeGrammar.read {} words
  return .analyze (← required d.file) d.fileType d.verbose

structure SearchDraft where
  file : Option Path := none
  term : Option Text := none

def searchGrammar : Grammar SearchDraft where
  options := []
  operands := [
    fileOperand "<FILE>" ({ · with file := · }),
    textOperand "<TERM>" ({ · with term := · })]

def readSearch (words : List Bytes) : Except Halt Command := do
  let d ← searchGrammar.read {} words
  return .search (← required d.file) (← required d.term)

structure AnnotateDraft where
  file : Option Path := none
  line : Option Nat := none
  kind : Option CommentKind := none
  fileType : Option Text := none
  note : Option Text := none
  dryRun : Bool := false

def annotateGrammar : Grammar AnnotateDraft where
  options := [
    valueOption "line" (some 'l') "--line <LINE>" takeNumber (·.line) ({ · with line := · }),
    valueOption "kind" (some 'k') "--kind <KIND>" takeKind (·.kind) ({ · with kind := · }),
    typeOption takeText (·.fileType) ({ · with fileType := · }),
    valueOption "text" none "--text <TEXT>" takeText (·.note) ({ · with note := · }),
    switchOption "dry-run" none (·.dryRun) ({ · with dryRun := true })]
  operands := [fileOperand "<FILE>" ({ · with file := · })]

def readAnnotate (words : List Bytes) : Except Halt Command := do
  let d ← annotateGrammar.read {} words
  return .annotate (← required d.file) (← required d.line) (d.kind.getD .singleLine) d.fileType
    (← required d.note) d.dryRun

structure ScanDraft where
  root : Option Path := none
  ignored : List Text := []
  verbose : Bool := false
  maxFiles : Option Nat := none
  maxDepth : Option Nat := none
  flat : Bool := false
  filespec : Option Text := none

/-- Every `--ignore` adds an entry. -/
def ignoreOption : OptionRule ScanDraft :=
  ⟨"ignore".toList, some 'i', "--ignore <IGNORE>".toList, fun _ => false,
    .value fun value draft => (takeText value).map fun t =>
      { draft with ignored := draft.ignored ++ [t] }⟩

def scanGrammar : Grammar ScanDraft where
  options := [
    ignoreOption,
    switchOption "verbose" (some 'v') (·.verbose) ({ · with verbose := true }),
    valueOption "max-entries" (some 'm') "--max-entries <MAX_ENTRIES>" takeNumber (·.maxFiles)
      ({ · with maxFiles := · }),
    valueOption "max-depth" (some 'd') "--max-depth <MAX_DEPTH>" takeNumber (·.maxDepth)
      ({ · with maxDepth := · }),
    switchOption "non-recursive" (some 'n') (·.flat) ({ · with flat := true }),
    valueOption "filespec" (some 'f') "--filespec <FILESPEC>" takeText (·.filespec)
      ({ · with filespec := · })]
  operands := [fileOperand "[PATH]" ({ · with root := · })]

def scanOptions (d : ScanDraft) : ScanOptions :=
  let usual : ScanOptions := {}
  { ignored := d.ignored, maxDepth := d.maxDepth.getD usual.maxDepth,
    maxFiles := d.maxFiles.getD usual.maxFiles, flat := d.flat }

def readScan (words : List Bytes) : Except Halt Command := do
  let d ← scanGrammar.read {} words
  return .scan (d.root.getD ⟨Path.current⟩) (scanOptions d) d.filespec d.verbose

structure CreateDraft where
  directory : Option Path := none
  name : Option Text := none
  fileType : Option FileType := none

def createGrammar : Grammar CreateDraft where
  options := [typeOption takeFileType (·.fileType) ({ · with fileType := · })]
  operands := [
    fileOperand "<DIR>" ({ · with directory := · }),
    textOperand "<NAME>" ({ · with name := · })]

def readCreate (words : List Bytes) : Except Halt Command := do
  let d ← createGrammar.read {} words
  return .create (← required d.directory) (← required d.name) (← required d.fileType)

def languagesGrammar : Grammar Unit := ⟨[], []⟩

def readLanguages (words : List Bytes) : Except Halt Command := do
  languagesGrammar.read () words
  return .languages

/-- The commands by their names. -/
def commands : List (Text × (List Bytes → Except Halt Command)) := [
  ("analyze".toList, readAnalyze),
  ("search".toList, readSearch),
  ("annotate".toList, readAnnotate),
  ("scan".toList, readScan),
  ("create".toList, readCreate),
  ("languages".toList, readLanguages)]

/-- The reader of the command that a word names. -/
def reader? (word : Bytes) : Option (List Bytes → Except Halt Command) :=
  (commands.find? (Grammar.spells ·.1 word)).map (·.2)

def isCommandName (word : Bytes) : Bool :=
  (reader? word).isSome || Grammar.spells Grammar.helpWord word

def unknownCommand (word : Bytes) : Halt := .error (.unknownCommand (Utf8.decodeLossy word))

/-- Help may be asked for by the name of a command. -/
def readHelp : List Bytes → Except Halt Command
  | [] => .error .help
  | word :: rest =>
    if !isCommandName word then .error (unknownCommand word)
    else
      match rest with
      | [] => .error .help
      | next :: _ => .error (unknownCommand next)

def versionWord : Text := "version".toList

def versionLetter : Char := 'V'

/-- An option in front of the name of a command. -/
def readTopLong (word : Bytes) : Except Halt Command :=
  let (name, attached) := Grammar.cutLong word
  let shown := "--".toList ++ Utf8.decodeLossy name
  if Grammar.spells versionWord name ∨ Grammar.spells Grammar.helpWord name then
    match attached with
    | some value => .error (.error (.unexpectedValue (Utf8.decodeLossy value) shown))
    | none => .error (if Grammar.spells versionWord name then .version else .help)
  else .error (.error (.unexpectedArgument shown))

/-- A letter in front of the name of a command. -/
def readTopLetters (letters : Bytes) : Except Halt Command :=
  let letter := Grammar.firstLetter letters
  if letter = [versionLetter] then .error .version
  else if letter = [Grammar.helpLetter] then .error .help
  else .error (.error (.unexpectedArgument ('-' :: letter)))

/-- After two dashes a command's name is one argument too many, and any other word no command. -/
def readTopClosed : List Bytes → Except Halt Command
  | [] => .error .help
  | word :: _ =>
    .error (if isCommandName word then .error (.unexpectedArgument (Utf8.decodeLossy word))
      else unknownCommand word)

/-- A word where the name of a command should be. -/
def readTop (word : Bytes) (rest : List Bytes) : Except Halt Command :=
  match Grammar.lookOf word with
  | .ending => readTopClosed rest
  | .long name => readTopLong name
  | .letters letters => readTopLetters letters
  | .plain =>
    if Grammar.spells Grammar.helpWord word then readHelp rest else .error (unknownCommand word)

/-- Reads a command line without the program's own name. -/
def read : List Bytes → Except Halt Command
  | [] => .error .help
  | word :: rest =>
    match reader? word with
    | some readCommand => readCommand rest
    | none => readTop word rest

end Marginalia.Invocation
