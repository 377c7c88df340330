import Marginalia.Text.Layout
/-!
Patterns for file names: `?` stands for a character, `*` for any text, `[...]` for a class of
characters, and `**` between slashes for any number of directories. Neither a slash nor a leading
dot is special to the first three.
-/

namespace Marginalia

/-- A character or a range of them; a range whose ends are in the wrong order is empty. -/
inductive Range where
  | single (c : Char)
  | between (first last : Char)
deriving DecidableEq, Repr

def Range.has (c : Char) : Range → Bool
  | .single d => c == d
  | .between first last => decide (first ≤ c) && decide (c ≤ last)

/-- The text of a class, read from the left: a dash between two characters makes a range. -/
def Range.ofClass : Text → List Range
  | first :: '-' :: last :: rest => .between first last :: Range.ofClass rest
  | c :: rest => .single c :: Range.ofClass rest
  | [] => []

/-- What a pattern is made of. -/
inductive PatternPart where
  | char (c : Char)
  | anyChar
  | oneOf (ranges : List Range)
  | noneOf (ranges : List Range)
  | anyText
  | anyDirectories
deriving DecidableEq, Repr

/-- A pattern as the list of its parts. -/
structure Pattern where
  parts : List PatternPart
deriving DecidableEq, Repr

namespace Pattern

inductive Problem where
  | wildcards
  | directories
  | range
deriving DecidableEq, Repr

/-- What is wrong with the text of a pattern, and before which character. -/
structure Fault where
  position : Nat
  problem : Problem
deriving DecidableEq, Repr

def Problem.text : Problem → Text
  | wildcards => "wildcards are either regular `*` or recursive `**`".toList
  | directories => "recursive wildcards must form a single path component".toList
  | range => "invalid range pattern".toList

def Fault.text (f : Fault) : Text :=
  "Pattern syntax error near position ".toList ++ Text.decimal f.position ++ ": ".toList ++
    f.problem.text

/-- The text of a class up to its bracket, and what follows. The first character of a class is taken
as it is, be it a bracket. -/
def cutClass? : Text → Option (Text × Text)
  | [] => none
  | first :: rest =>
    match rest.dropWhile (· ≠ ']') with
    | [] => none
    | _ :: after => some (first :: rest.takeWhile (· ≠ ']'), after)

theorem length_lt_of_cutClass? {t inside after : Text} (h : cutClass? t = some (inside, after)) :
    after.length < t.length := by
  cases t with
  | nil => simp [cutClass?] at h
  | cons first rest =>
    have hs : (rest.dropWhile (· ≠ ']')).length ≤ rest.length :=
      (List.dropWhile_sublist _).length_le
    simp only [cutClass?] at h
    split at h
    · simp at h
    · rename_i hd
      simp only [Option.some.injEq, Prod.mk.injEq] at h
      rw [hd] at hs
      simp only [List.length_cons] at hs ⊢
      rw [← h.2]
      omega

/-- One more run of directories says nothing new after another one, unless that one opens the
pattern. -/
def pushDirectories (parts : List PatternPart) : List PatternPart :=
  if parts.length > 1 ∧ parts.getLast? = some .anyDirectories then parts
  else parts ++ [.anyDirectories]

/-- Reads a pattern on from the character `before`, at `position`, after `parts`. -/
def parseFrom (before : Option Char) (position : Nat) (parts : List PatternPart) (t : Text) :
    Except Fault Pattern :=
  match t with
  | [] => .ok ⟨parts⟩
  | '?' :: rest => parseFrom (some '?') (position + 1) (parts ++ [.anyChar]) rest
  | '*' :: '*' :: '*' :: _ => .error ⟨position + 2, .wildcards⟩
  | '*' :: '*' :: rest =>
    if before = none ∨ before = some '/' then
      match rest with
      | [] => .ok ⟨pushDirectories parts⟩
      | '/' :: rest => parseFrom (some '/') (position + 3) (pushDirectories parts) rest
      | _ => .error ⟨position + 2, .directories⟩
    else .error ⟨position - 1, .directories⟩
  | '*' :: rest => parseFrom (some '*') (position + 1) (parts ++ [.anyText]) rest
  | '[' :: '!' :: rest =>
    match h : cutClass? rest with
    | none => .error ⟨position, .range⟩
    | some (inside, after) =>
      have := length_lt_of_cutClass? h
      parseFrom (some ']') (position + inside.length + 3)
        (parts ++ [.noneOf (Range.ofClass inside)]) after
  | '[' :: rest =>
    match h : cutClass? rest with
    | none => .error ⟨position, .range⟩
    | some (inside, after) =>
      have := length_lt_of_cutClass? h
      parseFrom (some ']') (position + inside.length + 2)
        (parts ++ [.oneOf (Range.ofClass inside)]) after
  | c :: rest => parseFrom (some c) (position + 1) (parts ++ [.char c]) rest
termination_by t.length
decreasing_by all_goals (simp only [List.length_cons]; omega)

def parse (t : Text) : Except Fault Pattern := parseFrom none 0 [] t

/-- How an attempt ends. Where the text ends before the pattern does, a later place to begin leaves
even less of it. -/
inductive Attempt where
  | matched
  | mismatch
  | exhausted
deriving DecidableEq, Repr

def Attempt.orElse (a : Attempt) (b : Unit → Attempt) : Attempt :=
  match a with
  | .mismatch => b ()
  | other => other

/-- Tries the rest of a pattern at every place of a text. -/
def afterAny (rest : Text → Attempt) : Text → Attempt
  | [] => rest []
  | c :: t => (rest (c :: t)).orElse fun _ => afterAny rest t

/-- Tries the rest of a pattern where a name begins, and at the end. -/
def afterDirectories (rest : Text → Attempt) (atName : Bool) : Text → Attempt
  | [] => rest []
  | c :: t =>
    (if atName then rest (c :: t) else .mismatch).orElse fun _ =>
      afterDirectories rest (c == '/') t

/-- The parts that stand for one character. -/
def accepts (c : Char) : PatternPart → Bool
  | .char d => c == d
  | .anyChar => true
  | .oneOf ranges => ranges.any (·.has c)
  | .noneOf ranges => !ranges.any (·.has c)
  | .anyText | .anyDirectories => false

def attempt : List PatternPart → Text → Attempt
  | [], [] => .matched
  | [], _ :: _ => .mismatch
  | .anyText :: parts, t => afterAny (attempt parts) t
  | .anyDirectories :: parts, t => afterDirectories (attempt parts) true t
  | _ :: _, [] => .exhausted
  | part :: parts, c :: t => if accepts c part then attempt parts t else .mismatch

/-- The whole of a text matches the pattern. -/
def covers (p : Pattern) (t : Text) : Bool := attempt p.parts t == .matched

end Pattern

end Marginalia
