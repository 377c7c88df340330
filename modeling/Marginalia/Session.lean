import Marginalia.Report
import Marginalia.Search
import Marginalia.SourceText
/-!
A source that is looked at, changed and read again, step by step. A step that fails leaves the
source as it was.
-/

namespace Marginalia

namespace Session

inductive Step where
  | report (token : Text)
  | search (term : Text)
  | insert (line : Nat) (comment : Text)
  | annotate (request : Request)
  | render
  /-- Writes the source out and reads it in again. -/
  | reread
  | load (content : Text)
deriving DecidableEq, Repr

/-- What a step shows. -/
inductive Reply where
  | report (r : Report)
  | findings (f : Findings)
  | lines (lines : List Text)
  | text (t : Text)
  | source (s : SourceText)
  | failure (e : Failure)
deriving DecidableEq, Repr

/-- New lines take the place of the old ones, or there is a failure and nothing changes. -/
def edit (s : SourceText) (lines : Except Failure (List Text)) : Reply × SourceText :=
  match lines with
  | .ok lines => (.lines lines, s.withLines lines)
  | .error e => (.failure e, s)

def step (s : SourceText) : Step → Reply × SourceText
  | .report token => (.report (Report.ofToken token s.lines), s)
  | .search term =>
    match Marginalia.search s.lines term with
    | .ok f => (.findings f, s)
    | .error e => (.failure e, s)
  | .insert line comment => edit s (Insertion.insert s.lines line comment)
  | .annotate request => edit s (Insertion.annotate s.lines request)
  | .render => (.text s.render, s)
  | .reread => (.source (.parse s.render), .parse s.render)
  | .load content => (.source (.parse content), .parse content)

def run (s : SourceText) : List Step → List Reply × SourceText
  | [] => ([], s)
  | next :: steps =>
    let (reply, s) := step s next
    let (replies, s) := run s steps
    (reply :: replies, s)

end Session

end Marginalia
