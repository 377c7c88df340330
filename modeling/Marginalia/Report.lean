import Marginalia.CommentRule
import Marginalia.Text.Layout
/-!
The report on the lines of a file: how many are blank, comment and code, and where comments ask for
work. A report on two files one after the other adds up, with the second one's lines moved on.
-/

namespace Marginalia

/-- The words that mark open work in a comment. -/
inductive Marker where
  | todo
  | fixme
deriving DecidableEq, Repr

namespace Marker

/-- The order in which a line's markers are listed. -/
def all : List Marker := [todo, fixme]

def word : Marker → Text
  | todo => "TODO".toList
  | fixme => "FIXME".toList

/-- A marker counts once on a line, wherever it stands there and as part of any word. -/
def isIn (m : Marker) (line : Text) : Bool := Text.includes m.word line

end Marker

/-- A marker with the number and the raw text of its line. -/
structure Sighting where
  marker : Marker
  line : Nat
  text : Text
deriving DecidableEq, Repr

/-- How many lines there are of each kind. -/
structure Counts where
  total : Nat
  blank : Nat
  comment : Nat
  todo : Nat
  fixme : Nat
deriving DecidableEq, Repr

namespace Counts

def zero : Counts := ⟨0, 0, 0, 0, 0⟩

def add (a b : Counts) : Counts :=
  ⟨a.total + b.total, a.blank + b.blank, a.comment + b.comment, a.todo + b.todo, a.fixme + b.fixme⟩

instance : Zero Counts := ⟨zero⟩
instance : Add Counts := ⟨add⟩

/-- Lines that are neither blank nor comment. -/
def code (c : Counts) : Nat := c.total - c.blank - c.comment

def sum (cs : List Counts) : Counts := cs.foldr (· + ·) 0

theorem add_def (a b : Counts) : a + b =
    ⟨a.total + b.total, a.blank + b.blank, a.comment + b.comment, a.todo + b.todo,
      a.fixme + b.fixme⟩ :=
  rfl

theorem zero_def : (0 : Counts) = ⟨0, 0, 0, 0, 0⟩ := rfl

@[simp] theorem total_add (a b : Counts) : (a + b).total = a.total + b.total := rfl

@[simp] theorem blank_add (a b : Counts) : (a + b).blank = a.blank + b.blank := rfl

@[simp] theorem comment_add (a b : Counts) : (a + b).comment = a.comment + b.comment := rfl

@[simp] theorem todo_add (a b : Counts) : (a + b).todo = a.todo + b.todo := rfl

@[simp] theorem fixme_add (a b : Counts) : (a + b).fixme = a.fixme + b.fixme := rfl

theorem add_assoc (a b c : Counts) : a + b + c = a + (b + c) := by
  simp [add_def, Nat.add_assoc]

theorem add_comm (a b : Counts) : a + b = b + a := by
  simp [add_def, Nat.add_comm]

theorem zero_add (a : Counts) : 0 + a = a := by
  simp [add_def, zero_def]

theorem sum_append (as bs : List Counts) : sum (as ++ bs) = sum as + sum bs := by
  induction as with
  | nil => exact (zero_add _).symm
  | cons a as ih =>
    have h : a + sum (as ++ bs) = a + (sum as + sum bs) := congrArg (a + ·) ih
    exact h.trans (add_assoc a (sum as) (sum bs)).symm

end Counts

structure Report where
  fileType : Option FileType
  counts : Counts
  sightings : List Sighting
deriving DecidableEq, Repr

namespace CommentRule

/-- The markers of a line: only a comment has any. -/
def markersIn (rule : CommentRule) (line : Text) : List Marker :=
  if rule.classify line = .comment then Marker.all.filter (·.isIn line) else []

def countLine (rule : CommentRule) (line : Text) : Counts where
  total := 1
  blank := if rule.classify line = .blank then 1 else 0
  comment := if rule.classify line = .comment then 1 else 0
  todo := (rule.markersIn line).count .todo
  fixme := (rule.markersIn line).count .fixme

def countLines (rule : CommentRule) (lines : List Text) : Counts :=
  Counts.sum (lines.map rule.countLine)

def sightingsAt (rule : CommentRule) (line : Text) (number : Nat) : List Sighting :=
  (rule.markersIn line).map (⟨·, number, line⟩)

/-- The sightings in lines that are numbered from `first` on. -/
def sightingsFrom (rule : CommentRule) (first : Nat) (lines : List Text) : List Sighting :=
  (lines.zipIdx first).flatMap fun (line, number) => rule.sightingsAt line number

theorem countLines_cons (rule : CommentRule) (line : Text) (lines : List Text) :
    rule.countLines (line :: lines) = rule.countLine line + rule.countLines lines :=
  rfl

theorem countLines_singleton (rule : CommentRule) (line : Text) :
    rule.countLines [line] = rule.countLine line :=
  (Counts.add_comm _ 0).trans (Counts.zero_add _)

theorem countLines_append (rule : CommentRule) (first second : List Text) :
    rule.countLines (first ++ second) = rule.countLines first + rule.countLines second := by
  simp [countLines, Counts.sum_append]

end CommentRule

namespace Report

/-- The report on lines that belong to a file of type `f`, under the rule of that type. -/
def ofLines (f : Option FileType) (lines : List Text) : Report :=
  let rule := CommentRule.ofType f
  ⟨f, rule.countLines lines, rule.sightingsFrom 1 lines⟩

/-- The type is given by name; lines of an unknown type are read by the hash rule. -/
def ofToken (token : Text) (lines : List Text) : Report := ofLines (FileType.ofToken? token) lines

def linesOf (r : Report) (m : Marker) : List Nat :=
  (r.sightings.filter (·.marker = m)).map (·.line)

/-- A sighting in a printed report: the word, the trimmed line and its number. -/
def sightingText (s : Sighting) : Text :=
  Text.line [s.marker.word, ": ".toList, Text.trim s.text, " (Line ".toList, Text.decimal s.line,
    [')']]

def heading (r : Report) : Text :=
  Text.line ["File Type: ".toList, FileType.shownToken r.fileType] ++
  Text.line ["Lines of Code: ".toList, Text.decimal r.counts.total] ++
  Text.line ["Blank Lines: ".toList, Text.decimal r.counts.blank] ++
  Text.line ["Comment Lines: ".toList, Text.decimal r.counts.comment] ++
  Text.line ["TODOs: ".toList, Text.decimal r.counts.todo] ++
  Text.line ["FIXMEs: ".toList, Text.decimal r.counts.fixme] ++
  Text.line [] ++
  Text.line ["Comment Report:".toList]

/-- The printed report. `Lines of Code` is the number of all lines. -/
def render (r : Report) : Text := r.heading ++ r.sightings.flatMap sightingText

end Report

end Marginalia
