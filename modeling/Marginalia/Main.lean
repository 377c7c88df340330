import Marginalia.Program
/-!
The program on the file system of the machine. A file that is saved gets the rights of a new one,
because rights cannot be read from here.
-/

namespace Marginalia.Machine

def stringOf (p : Path) : String := String.ofList p.display

def pathOf (s : String) : Path := .ofText s.toList

/-- The number that came with an error. -/
def rawCode : IO.Error → Option UInt32
  | .alreadyExists _ code _ | .otherError code _ | .resourceBusy code _ | .resourceVanished code _
  | .unsupportedOperation code _ | .hardwareFault code _ | .unsatisfiedConstraints code _
  | .illegalOperation code _ | .protocolError code _ | .timeExpired code _ | .interrupted _ code _
  | .noFileOrDirectory _ code _ | .invalidArgument _ code _ | .permissionDenied _ code _
  | .resourceExhausted _ code _ | .inappropriateType _ code _ | .noSuchThing _ code _ => some code
  | .unexpectedEof | .userError _ => none

/-- The system's number of an error; some are counted down from zero. -/
def codeOf (e : IO.Error) : Option Nat :=
  (rawCode e).map fun code =>
    if code.toNat < 0x80000000 then code.toNat else UInt32.size - code.toNat

def faultOf (e : IO.Error) : Fault :=
  match (codeOf e).bind SystemError.ofCode? with
  | some known => .system known
  | none => .other e.toString.toList

def attempt {α : Type} (act : IO α) : IO (Except Fault α) :=
  try return .ok (← act) catch e => return .error (faultOf e)

def contents (p : Path) : IO (Except Fault Bytes) :=
  attempt (return (← IO.FS.readBinFile (stringOf p)).toList)

/-- What cannot be read is given no rights, so that a scan of it warns. -/
def fileNode (name : String) : IO Node :=
  try return .file 0o644 (← IO.FS.readBinFile name).toList catch _ => return .file 0 []

/-- A directory that every scan passes over is not looked into. -/
def isClosed (name : String) : Bool := Scan.usuallyIgnored.contains name.toList

mutual

partial def entryNode (e : IO.FS.DirEntry) : IO Node := do
  match (← e.path.symlinkMetadata).type with
  | .file => fileNode e.path.toString
  | .dir =>
    if isClosed e.fileName then return .directory 0o755 []
    else
      try return .directory 0o755 (← entryNodes (← e.path.readDir))
      catch _ => return .directory 0 []
  | .symlink => return .symlink ⟨[]⟩
  | .other => return .socket 0

partial def entryNodes (found : Array IO.FS.DirEntry) : IO (List (Name × Node)) :=
  found.toList.mapM fun e => return (Utf8.encode e.fileName.toList, ← entryNode e)

end

/-- What is found by the canonical path of something, or by its own path if it has no other. -/
def explore (p : Path) : IO (Option (Path × Except SystemError Node)) := do
  let root ← try IO.FS.realPath (stringOf p) catch _ => pure (stringOf p)
  match ← attempt root.metadata with
  | .ok metadata =>
    let found ← match metadata.type with
      | .dir =>
        try pure (.directory 0o755 (← entryNodes (← root.readDir)))
        catch _ => pure (.directory 0 [])
      | .file => fileNode root.toString
      | .symlink | .other => pure (.socket 0)
    return some (pathOf root.toString, .ok found)
  | .error fault =>
    match fault with
    | .system e =>
      return if root.toString = stringOf p then none else some (pathOf root.toString, .error e)
    | _ => return none

/-- A name for a scratch file, six letters after its stem. -/
def scratchName : IO Path := do
  let letters ← (List.replicate 6 ()).mapM fun _ => do
    return Char.ofNat ('a'.toNat + (← IO.rand 0 25))
  return .ofText (".tmp".toList ++ letters)

def writeNew (name : String) (data : Bytes) : IO Unit := do
  let handle ← IO.FS.Handle.mk name .writeNew
  handle.write ⟨data.toArray⟩
  handle.flush

def save (p : Path) (data : Bytes) : IO (Except Fault Unit) := do
  let home := pathOf (← IO.currentDir).toString
  let scratch := home.join (p.directory.join (← scratchName))
  match ← attempt (writeNew (stringOf scratch) data) with
  | .error e => return .error (.scratch e scratch)
  | .ok () =>
    let moved ← attempt (IO.FS.rename (stringOf scratch) (stringOf p))
    match moved with
    | .ok () => return moved
    | .error _ =>
      let _ ← attempt (IO.FS.removeFile (stringOf scratch))
      return moved

def create (p : Path) : IO (Except Fault Unit) := attempt (writeNew (stringOf p) [])

def files : Files IO := { contents, explore, save, create }

def environment : IO Environment := do
  let noColour ← IO.getEnv "NO_COLOR"
  let forceColour ← IO.getEnv "CLICOLOR_FORCE"
  return ⟨noColour.map (·.toList), forceColour.map (·.toList)⟩

end Marginalia.Machine

def main (args : List String) : IO UInt32 := do
  let env ← Marginalia.Machine.environment
  let words := args.map fun word => Marginalia.Utf8.encode word.toList
  let ending ← Marginalia.Program.run Marginalia.Machine.files env words
  (← IO.getStdout).putStr (String.ofList ending.out.flatten)
  (← IO.getStderr).putStr (String.ofList ending.err.flatten)
  return ending.code.toUInt32
