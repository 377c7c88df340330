import Marginalia.Text.Ink
import Marginalia.Text.Steering
/-!
What is wrong with a command line, and how it is said. Words taken from the command line are marked
off by colours where there are any; otherwise what would steer a terminal is left out of them.
-/

namespace Marginalia

inductive UsageError where
  | unexpectedArgument (given : Text)
  | unexpectedValue (value shown : Text)
  | unknownCommand (given : Text)
  | missingValue (shown : Text)
  | repeated (shown : Text)
  | invalidValue (value shown reason : Text)
  | invalidUtf8
  | missingRequired
deriving DecidableEq, Repr

namespace UsageError

/-- A piece of a message; what is `given` is not as it should be, what is `known` is. -/
inductive Piece where
  | words (t : Text)
  | given (t : Text)
  | known (t : Text)
deriving DecidableEq, Repr

def pieces : UsageError → List Piece
  | unexpectedArgument given =>
    [.words "unexpected argument '".toList, .given given, .words "' found".toList]
  | unexpectedValue value shown =>
    [.words "unexpected value '".toList, .given value, .words "' for '".toList, .known shown,
      .words "' found; no more were expected".toList]
  | unknownCommand given =>
    [.words "unrecognized subcommand '".toList, .given given, .words ['\'']]
  | missingValue shown =>
    [.words "a value is required for '".toList, .given shown,
      .words "' but none was supplied".toList]
  | repeated shown =>
    [.words "the argument '".toList, .given shown, .words "' cannot be used multiple times".toList]
  | invalidValue value shown reason =>
    [.words "invalid value '".toList, .given value, .words "' for '".toList, .known shown,
      .words "': ".toList, .words reason]
  | invalidUtf8 => [.words "invalid UTF-8 was detected in one or more arguments".toList]
  | missingRequired => [.words "the following required arguments were not provided:".toList]

def Piece.styled : Piece → Text
  | words t => t
  | given t => Ink.escape "33".toList ++ t ++ Ink.escape ['0']
  | known t => Ink.escape ['1'] ++ t ++ Ink.escape ['0']

/-- Where more can be read. -/
def hint : List Piece :=
  [.words "\n\nFor more information, try '".toList, .known "--help".toList,
    .words "'.\n".toList]

def styled (e : UsageError) : Text :=
  Ink.escape ['1'] ++ Ink.escape "31".toList ++ "error:".toList ++ Ink.escape ['0'] ++ [' '] ++
    (e.pieces ++ hint).flatMap Piece.styled

/-- Without colours the whole message is stripped of codes, and with them of those that came from
the command line. -/
def message (ink : Ink) (e : UsageError) : Text :=
  match ink with
  | .plain => Text.strip e.styled
  | .coloured => e.styled

end UsageError

end Marginalia
