import Marginalia.Text.Layout
/-!
Whole numbers on the command line: decimal digits, perhaps after a plus sign, up to the largest that
fits into 64 bits.
-/

namespace Marginalia.Number

inductive Fault where
  | empty
  | invalidDigit
  | tooLarge
deriving DecidableEq, Repr

def Fault.text : Fault → Text
  | empty => "cannot parse integer from empty string".toList
  | invalidDigit => "invalid digit found in string".toList
  | tooLarge => "number too large to fit in target type".toList

/-- The first number that does not fit. -/
def bound : Nat := UInt64.size

/-- One more digit; a character that is none is reported before a number that grows too large. -/
def extend (n : Nat) (c : Char) : Except Fault Nat :=
  if !c.isDigit then .error .invalidDigit
  else
    let next := n * 10 + (c.toNat - '0'.toNat)
    if next < bound then .ok next else .error .tooLarge

def parse (t : Text) : Except Fault Nat :=
  match t with
  | [] => .error .empty
  | ['+'] => .error .invalidDigit
  | '+' :: digits => digits.foldlM extend 0
  | digits => digits.foldlM extend 0

end Marginalia.Number
