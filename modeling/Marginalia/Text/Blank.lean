/-!
Texts as lists of characters, and the characters that count as blank when a line is trimmed.
-/

namespace Marginalia

/-- A line, a term or a message, character by character. -/
abbrev Text := List Char

namespace Text

/-- The characters with the Unicode property `White_Space`. A byte order mark and a zero width
space do not have it, so they count as ink. -/
def isBlank (c : Char) : Bool :=
  let n := c.toNat
  (0x09 ≤ n && n ≤ 0x0D) || n == 0x20 || n == 0x85 || n == 0xA0 || n == 0x1680 ||
    (0x2000 ≤ n && n ≤ 0x200A) || n == 0x2028 || n == 0x2029 || n == 0x202F || n == 0x205F ||
    n == 0x3000

/-- Drops the characters with property `p` that the text ends in. -/
def dropEndWhile (p : Char → Bool) (t : Text) : Text := (t.reverse.dropWhile p).reverse

/-- The text without blanks at either end. -/
def trim (t : Text) : Text := dropEndWhile isBlank (t.dropWhile isBlank)

/-- Whether a word stands anywhere in a text, be it as part of a longer word. -/
def includes (word : Text) : Text → Bool
  | [] => word.isEmpty
  | c :: rest => word.isPrefixOf (c :: rest) || includes word rest

theorem includes_iff (word t : Text) : includes word t = true ↔ word <:+: t := by
  induction t with
  | nil => simp [includes]
  | cons c rest ih => simp [includes, List.infix_cons_iff, ih]

theorem dropEndWhile_prefix (p : Char → Bool) (t : Text) : dropEndWhile p t <+: t := by
  have h := List.dropWhile_suffix p (l := t.reverse)
  rw [← List.reverse_prefix, List.reverse_reverse] at h
  exact h

theorem getLast?_dropEndWhile {p : Char → Bool} {t : Text} {c : Char}
    (h : (dropEndWhile p t).getLast? = some c) : p c = false := by
  have hstop := List.head?_dropWhile_not p t.reverse
  rw [dropEndWhile, List.getLast?_reverse] at h
  rwa [h] at hstop

end Text

end Marginalia
