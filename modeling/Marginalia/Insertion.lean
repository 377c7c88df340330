import Marginalia.Comment
/-!
Putting a comment before one of the lines of a file. Every line stays as it is and keeps its place
among the others; the comment's own lines come between.
-/

namespace Marginalia

/-- A note that is to stand before a line, the first line being 1. -/
structure Request where
  fileType : Text
  kind : CommentKind
  note : Text
  line : Nat
deriving DecidableEq, Repr

namespace Insertion

/-- The lines that a comment takes up, without the returns they end in. -/
def pieces (comment : Text) : List Text :=
  (comment.splitOn '\n').map (Text.dropEndWhile (· == '\r'))

/-- Lines with others put in after the first `n`. -/
def splice (lines : List Text) (n : Nat) (others : List Text) : List Text :=
  lines.take n ++ others ++ lines.drop n

theorem pieces_ne_nil (comment : Text) : pieces comment ≠ [] := by
  simp [pieces, List.splitOn_ne_nil]

theorem length_splice (lines : List Text) {n : Nat} (h : n ≤ lines.length) (others : List Text) :
    (splice lines n others).length = lines.length + others.length := by
  simp only [splice, List.length_append, List.length_take, List.length_drop]
  omega

/-- The comment goes before an existing line, so an empty file takes none. -/
def insert (lines : List Text) (line : Nat) (comment : Text) : Except Failure (List Text) :=
  if line = 0 ∨ lines.length < line then .error (.lineOutOfRange line lines.length)
  else .ok (splice lines (line - 1) (pieces comment))

theorem insert_eq_ok_iff {lines result : List Text} {line : Nat} {comment : Text} :
    insert lines line comment = .ok result ↔
      0 < line ∧ line ≤ lines.length ∧ result = splice lines (line - 1) (pieces comment) := by
  simp only [insert]
  split
  · rename_i h
    simp only [reduceCtorEq, false_iff, not_and]
    omega
  · rename_i h
    simp only [Except.ok.injEq]
    constructor
    · intro e
      exact ⟨by omega, by omega, e.symm⟩
    · intro e
      exact e.2.2.symm

/-- An unknown type is reported before a line out of range. -/
def annotate (lines : List Text) (r : Request) : Except Failure (List Text) := do
  let comment ← Comment.format r.fileType r.kind r.note
  insert lines r.line comment

end Insertion

end Marginalia
