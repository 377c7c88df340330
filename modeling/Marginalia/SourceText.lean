import Marginalia.Insertion
/-!
The text of a file that is to be written back: its lines, and what is needed to put them together
again as they were.
-/

namespace Marginalia

inductive LineEnding where
  | lf
  | crlf
deriving DecidableEq, Repr

def LineEnding.text : LineEnding → Text
  | lf => ['\n']
  | crlf => ['\r', '\n']

/-- Lines that are all broken alike; `closed` tells whether a break ends the last line too. -/
structure SourceText where
  lines : List Text
  ending : LineEnding
  closed : Bool
deriving DecidableEq, Repr

namespace SourceText

/-- A line without the return that belongs to its break; only one is taken off. -/
def dropReturn (line : Text) : Text :=
  if line.getLast? = some '\r' then line.dropLast else line

/-- The first break decides how all of them are written. -/
def endingOf (content : Text) : LineEnding :=
  if '\n' ∈ content ∧ (content.takeWhile (· ≠ '\n')).getLast? = some '\r' then .crlf else .lf

def isClosed (content : Text) : Bool := content.getLast? == some '\n'

/-- An empty content has no line at all, whereas a single break makes an empty line. -/
def linesOf (content : Text) : List Text :=
  if content = [] then []
  else
    let stretches := content.splitOn '\n'
    (if isClosed content then stretches.dropLast else stretches).map dropReturn

def parse (content : Text) : SourceText := ⟨linesOf content, endingOf content, isClosed content⟩

def withLines (s : SourceText) (lines : List Text) : SourceText := { s with lines }

def render (s : SourceText) : Text :=
  s.ending.text.intercalate s.lines ++
    if s.closed && s.lines != [] then s.ending.text else []

/-- The source with a note added. -/
def annotate (s : SourceText) (r : Request) : Except Failure SourceText :=
  (Insertion.annotate s.lines r).map s.withLines

theorem lines_withLines (s : SourceText) (lines : List Text) : (s.withLines lines).lines = lines :=
  rfl

end SourceText

end Marginalia
