import Marginalia.Text.Blank
/-!
Laying texts out: numbers in decimal, columns of a fixed width, printed lines.
-/

namespace Marginalia.Text

/-- A number in decimal, without a sign or leading zeros. -/
def decimal (n : Nat) : Text := Nat.toDigits 10 n

/-- The text at the left of a column; a longer text keeps its length. -/
def left (width : Nat) (t : Text) : Text := t.rightpad width ' '

/-- The text at the right of a column; a longer text keeps its length. -/
def right (width : Nat) (t : Text) : Text := t.leftpad width ' '

/-- The parts of one printed line, one after another, with its line feed. -/
def line (parts : List Text) : Text := parts.flatten ++ ['\n']

/-- The cells of a row, one blank between neighbours. -/
def spaced (cells : List Text) : Text := [' '].intercalate cells

theorem decimal_injective {m n : Nat} (h : decimal m = decimal n) : m = n := by
  rw [← Nat.ofDigitChars_ten_toDigits (n := m), ← Nat.ofDigitChars_ten_toDigits (n := n)]
  exact congrArg (Nat.ofDigitChars 10 · 0) h

theorem length_right_of_le {width : Nat} {t : Text} (h : t.length ≤ width) :
    (right width t).length = width := by
  simp [right, List.leftpad, h]

end Marginalia.Text
