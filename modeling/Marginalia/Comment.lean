import Marginalia.CommentRule
import Marginalia.Failure
/-!
Writing a note as a comment. The note goes between an opening and a closing text of its family; it
is not escaped, so a note that holds the closing text ends its comment early.
-/

namespace Marginalia

inductive CommentKind where
  | singleLine
  | multiLine
  | todo
  | fixme
deriving DecidableEq, Repr

namespace CommentKind

def all : List CommentKind := [singleLine, multiLine, todo, fixme]

def label : CommentKind → Text
  | singleLine => "Single Line".toList
  | multiLine => "Multi Line".toList
  | todo => "TODO".toList
  | fixme => "FIXME".toList

/-- The spellings of a kind, all of them in lower case and without gaps. -/
def spellings : CommentKind → List Text
  | singleLine => ["single".toList, "singleline".toList]
  | multiLine => ["multi".toList, "multiline".toList]
  | todo => ["todo".toList]
  | fixme => ["fixme".toList]

/-- A kind's name without the gaps it may be written with. -/
def plainName (given : Text) : Text :=
  ((Text.trim given).filter fun c => c ≠ ' ' && c ≠ '-' && c ≠ '_').map Char.toLower

def parse (given : Text) : Except Failure CommentKind :=
  match all.find? fun k => (plainName given) ∈ k.spellings with
  | some k => .ok k
  | none => .error (.unknownKind given)

theorem mem_all (k : CommentKind) : k ∈ all := by cases k <;> simp [all]

theorem parse_label (k : CommentKind) : parse k.label = .ok k := by cases k <;> rfl

end CommentKind

/-- The texts that go before and after a note. -/
structure Frame where
  before : Text
  after : Text
deriving DecidableEq, Repr

namespace Family

def lineFrame : Family → Frame
  | cLike => ⟨"// ".toList, []⟩
  | python => ⟨"# ".toList, []⟩
  | markup => ⟨"<!-- ".toList, " -->".toList⟩
  | css => ⟨"/* ".toList, " */".toList⟩

def blockFrame : Family → Frame
  | cLike => ⟨"/* ".toList, " */".toList⟩
  | python => ⟨"\"\"\"\n".toList, "\n\"\"\"".toList⟩
  | markup => ⟨"<!--\n".toList, "\n-->".toList⟩
  | css => ⟨"/*\n".toList, "\n*/".toList⟩

def frame (f : Family) : CommentKind → Frame
  | .multiLine => f.blockFrame
  | .singleLine | .todo | .fixme => f.lineFrame

end Family

namespace Comment

/-- What a kind writes in front of the note itself. -/
def label : CommentKind → Text
  | .todo => "TODO: ".toList
  | .fixme => "FIXME: ".toList
  | .singleLine | .multiLine => []

def ofFamily (family : Family) (kind : CommentKind) (note : Text) : Text :=
  (family.frame kind).before ++ label kind ++ note ++ (family.frame kind).after

/-- A comment needs a known file type. -/
def format (fileType : Text) (kind : CommentKind) (note : Text) : Except Failure Text := do
  let f ← FileType.require fileType
  return ofFamily f.family kind note

end Comment

end Marginalia
