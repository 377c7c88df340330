import Mathlib.Algebra.Group.Nat.Defs
import Marginalia.Proofs.Text.Words
import Marginalia.Text.Layout
/-!
Numbers in laid out lines. A number in decimal is one word of its line, whatever it is padded to, so
the numbers that a line ends in can be read back from it; and where all cells fit, a line is as wide
as its columns.
-/

namespace Marginalia.Text

/-! ### Decimals -/

theorem decimal_ne_nil (n : Nat) : decimal n ≠ [] := Nat.toDigits_ne_nil

theorem isDigit_of_mem_decimal {n : Nat} {c : Char} (h : c ∈ decimal n) : c.isDigit = true :=
  Nat.isDigit_of_mem_toDigits (by omega) (Nat.le_refl 10) h

theorem not_mem_decimal {c : Char} (hc : c.isDigit = false) (n : Nat) : c ∉ decimal n := by
  intro hmem
  rw [isDigit_of_mem_decimal hmem] at hc
  contradiction

theorem length_decimal_le {n k : Nat} (hk : 0 < k) (h : n < 10 ^ k) : (decimal n).length ≤ k :=
  (Nat.length_toDigits_le_iff (by omega) hk).mpr h

theorem dropEndWhile_append {p : Char → Bool} {t : Text} (ht : ∀ c ∈ t, p c = true) (s : Text) :
    dropEndWhile p (s ++ t) = dropEndWhile p s := by
  rw [dropEndWhile, dropEndWhile, List.reverse_append, List.dropWhile_append_of_pos]
  exact fun c hc => ht c (List.mem_reverse.mp hc)

/-- A number that a text ends in is told from what comes before it, unless that ends in a digit. -/
theorem append_decimal_inj {s t : Text} {m n : Nat} (hs : ∀ c ∈ s.getLast?, c.isDigit = false)
    (ht : ∀ c ∈ t.getLast?, c.isDigit = false) :
    s ++ decimal m = t ++ decimal n ↔ s = t ∧ m = n := by
  have hfront : ∀ {u : Text} (k : Nat), (∀ c ∈ u.getLast?, c.isDigit = false) →
      dropEndWhile Char.isDigit (u ++ decimal k) = u := by
    intro u k hu
    rw [dropEndWhile_append fun _ => isDigit_of_mem_decimal, dropEndWhile_eq_self hu]
  constructor
  · intro h
    obtain rfl : s = t := by rw [← hfront m hs, h, hfront n ht]
    exact ⟨rfl, decimal_injective (List.append_cancel_left h)⟩
  · intro h
    rw [h.1, h.2]

/-! ### Widths -/

theorem length_left_of_le {width : Nat} {t : Text} (h : t.length ≤ width) :
    (left width t).length = width := by
  rw [left, List.length_rightpad, Nat.max_eq_left h]

/-- A row is its first cell, and each further one after a blank. -/
theorem spaced_cons (cell : Text) (cells : List Text) :
    spaced (cell :: cells) = cell ++ cells.flatMap (' ' :: ·) := by
  induction cells generalizing cell with
  | nil => simp [spaced]
  | cons next cells ih =>
    have htail : [' '].intercalate (next :: cells) = next ++ cells.flatMap (' ' :: ·) := ih next
    rw [spaced, List.intercalate_cons_of_ne_nil (List.cons_ne_nil _ _), htail, List.flatMap_cons,
      List.append_assoc]
    rfl

/-- Cells of one width, each after a blank. -/
theorem length_flatMap_right {width : Nat} {cells : List Text}
    (h : ∀ cell ∈ cells, cell.length ≤ width) :
    (cells.flatMap (' ' :: right width ·)).length = cells.length * (width + 1) := by
  induction cells with
  | nil => simp
  | cons cell cells ih =>
    have hcell := length_right_of_le (h cell List.mem_cons_self)
    have htail := ih fun other hother => h other (List.mem_cons_of_mem _ hother)
    rw [List.flatMap_cons, List.length_append, List.length_cons, hcell, htail, List.length_cons,
      Nat.succ_mul, Nat.add_comm]

/-! ### Words -/

/-- What stands between the blanks of a line. -/
def words (t : Text) : List Text := (t.splitOn ' ').filter (· ≠ [])

theorem words_append_blank (s t : Text) : words (s ++ ' ' :: t) = words s ++ words t := by
  rw [words, List.splitOn_append_cons_self, List.filter_append]
  rfl

theorem words_of_free {w : Text} (hne : w ≠ []) (hfree : ' ' ∉ w) : words w = [w] := by
  rw [words, List.splitOn_eq_singleton hfree]
  simp [hne]

theorem words_blanks_append (n : Nat) (t : Text) : words (List.replicate n ' ' ++ t) = words t := by
  induction n with
  | zero => rfl
  | succ n ih =>
    have hfirst : words (' ' :: (List.replicate n ' ' ++ t)) = words (List.replicate n ' ' ++ t) :=
      words_append_blank [] _
    rw [List.replicate_succ, List.cons_append, hfirst, ih]

theorem words_right_decimal (width n : Nat) : words (right width (decimal n)) = [decimal n] := by
  have hfree : ' ' ∉ decimal n := not_mem_decimal rfl n
  rw [right, List.leftpad, words_blanks_append, words_of_free (decimal_ne_nil n) hfree]

/-- However wide the columns are that numbers stand in, each of them is a word. -/
theorem words_append_numbers (width : Nat) (before : Text) (ns : List Nat) :
    words (before ++ (ns.map decimal).flatMap (' ' :: right width ·)) =
      words before ++ ns.map decimal := by
  induction ns generalizing before with
  | nil => simp
  | cons n ns ih =>
    have hstep := ih (before ++ ' ' :: right width (decimal n))
    rw [words_append_blank, words_right_decimal] at hstep
    rw [List.map_cons, List.flatMap_cons, ← List.append_assoc, hstep, List.append_assoc]
    rfl

/-- The last `k` words of a line as numbers. -/
def numbersAtEnd (k : Nat) (t : Text) : List Nat :=
  ((words t).drop ((words t).length - k)).map (Nat.ofDigitChars 10 · 0)

/-- Numbers in columns at the end of a line are read back as they were. -/
theorem numbersAtEnd_append (width : Nat) (before : Text) (ns : List Nat) :
    numbersAtEnd ns.length (before ++ (ns.map decimal).flatMap (' ' :: right width ·)) = ns := by
  have hread : (ns.map decimal).map (Nat.ofDigitChars 10 · 0) = ns := by
    rw [List.map_map]
    exact List.map_id'' (fun n => Nat.ofDigitChars_ten_toDigits) ns
  rw [numbersAtEnd, words_append_numbers, List.length_append, List.length_map,
    Nat.add_sub_cancel, List.drop_left, hread]

end Marginalia.Text
