import Marginalia.FileType
/-!
How a comment is told from code, line by line. A line is a comment if it opens like one: a comment
that follows code on its line, and the inner lines of a block, count as code.
-/

namespace Marginalia

/-- What the lines of a comment begin with, and the delimiters of a block if there is one. -/
structure CommentRule where
  openings : List Text
  block : Option (Text × Text)
deriving DecidableEq, Repr

/-- What a single line is. -/
inductive LineClass where
  | blank
  | comment
  | code
deriving DecidableEq, Repr

namespace CommentRule

def slashSlash : Text := "//".toList

def slashStar : Text := "/*".toList

def starSlash : Text := "*/".toList

def hashMark : Text := "#".toList

def threeQuotes : Text := "\"\"\"".toList

def threeTicks : Text := "'''".toList

def angleOpen : Text := "<!--".toList

def angleClose : Text := "-->".toList

/-- The rule for a file of no known type. -/
def hash : CommentRule := ⟨[hashMark], none⟩

def ofFamily : Family → CommentRule
  | .cLike => ⟨[slashSlash, slashStar], some (slashStar, starSlash)⟩
  | .python => ⟨[hashMark, threeQuotes, threeTicks], some (threeQuotes, threeQuotes)⟩
  | .markup => ⟨[angleOpen, angleClose], some (angleOpen, angleClose)⟩
  | .css => ⟨[slashStar, starSlash], some (slashStar, starSlash)⟩

def ofType (f : Option FileType) : CommentRule := (f.map (ofFamily ·.family)).getD hash

def ofToken (given : Text) : CommentRule := ofType (FileType.ofToken? given)

/-- Blanks around a line do not count; an empty opening opens nothing. -/
def opens (rule : CommentRule) (line : Text) : Bool :=
  rule.openings.any fun opening => opening != [] && opening.isPrefixOf (Text.trim line)

def classify (rule : CommentRule) (line : Text) : LineClass :=
  if Text.trim line = [] then .blank else if rule.opens line then .comment else .code

/-- A line counts by its trimmed text alone. -/
theorem classify_congr (rule : CommentRule) {s t : Text} (h : Text.trim s = Text.trim t) :
    rule.classify s = rule.classify t := by
  simp [classify, opens, h]

theorem opens_of_trim_eq_nil (rule : CommentRule) {line : Text} (h : Text.trim line = []) :
    rule.opens line = false := by
  simp [opens, h]

theorem classify_eq_comment_iff (rule : CommentRule) (line : Text) :
    rule.classify line = .comment ↔ rule.opens line = true := by
  by_cases h : Text.trim line = []
  · simp [classify, h, rule.opens_of_trim_eq_nil h]
  · by_cases ho : rule.opens line = true <;> simp [classify, h, ho]

end CommentRule

end Marginalia
