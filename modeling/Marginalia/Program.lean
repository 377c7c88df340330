import Marginalia.CommandLine.Invocation
/-!
A run of the program: from its arguments to what it prints and its exit status.
-/

namespace Marginalia

/-- The variables of the environment that have a say in colours. -/
structure Environment where
  noColour : Option Text
  forceColour : Option Text
deriving DecidableEq, Repr

namespace Environment

def isForced (e : Environment) : Bool :=
  match e.forceColour with
  | none => false
  | some value => value != ['0']

/-- No terminal is asked: colours come only by force. -/
def ink (e : Environment) : Ink := if e.isForced then .coloured else .plain

/-- Messages on the command line's usage heed the wish for no colours before anything else, and a
variable that is empty says nothing to them. -/
def usageInk (e : Environment) : Ink :=
  if e.noColour.getD [] ≠ [] then .plain
  else if e.forceColour.getD [] ≠ [] then .coloured
  else .plain

end Environment

/-- What a run leaves behind, piece by piece. -/
structure Ending where
  code : Nat
  out : List Text
  err : List Text
deriving DecidableEq, Repr

namespace Program

def versionLine : Text := Text.line [Command.programName, [' '], Command.version]

def usage : Text :=
  Text.line ["Usage: ".toList, Command.programName, " <COMMAND>".toList] ++
  Text.line ["Commands: ".toList, Text.spaced (Invocation.commands.map (·.1))]

def failureLine (ink : Ink) (e : Failure) : Text :=
  Text.line [ink.paint .alarm "Error".toList, ": ".toList, e.message]

def endOfOutcome (ink : Ink) (o : Outcome) : Ending :=
  match o.failure with
  | none => ⟨0, o.out, o.warnings⟩
  | some e => ⟨1, o.out, o.warnings ++ [failureLine ink e]⟩

def endOfHalt (ink : Ink) : Halt → Ending
  | .help => ⟨0, [usage], []⟩
  | .version => ⟨0, [versionLine], []⟩
  | .error e => ⟨2, [], [e.message ink]⟩

def run {m : Type → Type} [Monad m] (fs : Files m) (e : Environment) (words : List Bytes) :
    m Ending :=
  match Invocation.read words with
  | .ok command => endOfOutcome e.ink <$> command.perform fs e.ink
  | .error halt => return endOfHalt e.usageInk halt

end Program

end Marginalia
