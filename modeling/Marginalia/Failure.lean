import Marginalia.Pattern
import Marginalia.Text.Quoted
import Marginalia.FileType
/-!
What can go wrong, as causes, and the one place where causes get their words.
-/

namespace Marginalia

/-- What the system refuses with. -/
inductive SystemError where
  | noEntry
  | noDevice
  | denied
  | busy
  | alreadyThere
  | notDirectory
  | isDirectory
  | invalid
  | nameTooLong
  | tooManyLinks
deriving DecidableEq, Repr

namespace SystemError

def code : SystemError → Nat
  | noEntry => 2
  | noDevice => 6
  | denied => 13
  | busy => 16
  | alreadyThere => 17
  | notDirectory => 20
  | isDirectory => 21
  | invalid => 22
  | nameTooLong => 36
  | tooManyLinks => 40

def wording : SystemError → Text
  | noEntry => "No such file or directory".toList
  | noDevice => "No such device or address".toList
  | denied => "Permission denied".toList
  | busy => "Device or resource busy".toList
  | alreadyThere => "File exists".toList
  | notDirectory => "Not a directory".toList
  | isDirectory => "Is a directory".toList
  | invalid => "Invalid argument".toList
  | nameTooLong => "File name too long".toList
  | tooManyLinks => "Too many levels of symbolic links".toList

def message (e : SystemError) : Text :=
  e.wording ++ " (os error ".toList ++ Text.decimal e.code ++ [')']

def all : List SystemError :=
  [noEntry, noDevice, denied, busy, alreadyThere, notDirectory, isDirectory, invalid, nameTooLong,
    tooManyLinks]

/-- The refusal that the system numbers so. -/
def ofCode? (n : Nat) : Option SystemError := all.find? (·.code = n)

theorem ofCode?_code (e : SystemError) : ofCode? e.code = some e := by cases e <;> rfl

end SystemError

/-- Why a file could not be used. -/
inductive Fault where
  | system (e : SystemError)
  | notUtf8
  | missing
  /-- A zero byte in a path, which the system would take for its end. -/
  | zeroByte
  /-- No scratch file could be made at this path. -/
  | scratch (cause : Fault) (place : Path)
  /-- The system's own words. -/
  | other (words : Text)
deriving DecidableEq, Repr

def Fault.message : Fault → Text
  | system e => e.message
  | notUtf8 => "stream did not contain valid UTF-8".toList
  | missing => "entity not found".toList
  | zeroByte => "file name contained an unexpected NUL byte".toList
  | scratch cause place => cause.message ++ " at path ".toList ++ Text.Quoted.quote place.bytes
  | other words => words

/-- What a file was wanted for. -/
inductive FileAction where
  | reading
  | saving
  | finding
  | creating
deriving DecidableEq, Repr

def FileAction.wording : FileAction → Text
  | reading => "Error reading".toList
  | saving => "Error saving".toList
  | finding => "Path does not exist:".toList
  | creating => "Error creating".toList

inductive Failure where
  | emptyTerm
  | emptyFileName
  | unknownKind (given : Text)
  | badPattern (given : Text) (fault : Pattern.Fault)
  | unsupportedFileType (given : Text)
  | lineOutOfRange (line count : Nat)
  | tooManyEntries (limit : Nat)
  | file (action : FileAction) (path : Path) (fault : Fault)
deriving DecidableEq, Repr

namespace Failure

/-- The words after `Invalid argument:`. -/
def invalidArgument (words : Text) : Text := "Invalid argument: ".toList ++ words

def message : Failure → Text
  | emptyTerm => invalidArgument "search term must not be empty".toList
  | emptyFileName => invalidArgument "file name cannot be empty".toList
  | unknownKind given => invalidArgument ("unknown comment kind '".toList ++ given ++ ['\''])
  | badPattern given fault =>
    invalidArgument ("Invalid filespec pattern '".toList ++ given ++ "': ".toList ++ fault.text)
  | unsupportedFileType given => "Unsupported file type: ".toList ++ given
  | lineOutOfRange line count =>
    "Line number ".toList ++ Text.decimal line ++ " out of range (file has ".toList ++
      Text.decimal count ++ " lines)".toList
  | tooManyEntries limit =>
    "Too many entries in directory tree (limit ".toList ++ Text.decimal limit ++ [')']
  | file action path fault =>
    action.wording ++ [' '] ++ path.display ++ ": ".toList ++ fault.message

end Failure

/-- The type of that name, for those who need a known one; the failure keeps the name as given. -/
def FileType.require (given : Text) : Except Failure FileType :=
  match FileType.ofToken? given with
  | some f => .ok f
  | none => .error (.unsupportedFileType given)

end Marginalia
