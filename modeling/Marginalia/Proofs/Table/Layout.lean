import Marginalia.Proofs.Text.Columns
import Marginalia.Table
/-!
How wide the lines of a table are. Every cell but a path is short enough for its column as long as
the numbers are; a path is made to fit by taking characters off its front.
-/

namespace Marginalia

namespace Table

/-- A text is not cut, or else its end comes after three dots. -/
theorem keepEnd_cases {width : Nat} (hwidth : 3 ≤ width) (t : Text) :
    t.length ≤ width ∧ keepEnd width t = t ∨
      width < t.length ∧ ∃ front back, t = front ++ back ∧ back.length = width - 3 ∧
        keepEnd width t = "...".toList ++ back := by
  by_cases h : t.length ≤ width
  · exact Or.inl ⟨h, if_pos h⟩
  · refine Or.inr ⟨Nat.not_le.mp h, _, _, (List.take_append_drop _ t).symm, ?_, if_neg h⟩
    rw [List.length_drop]
    omega

theorem length_keepEnd_le {width : Nat} (hwidth : 3 ≤ width) (t : Text) :
    (keepEnd width t).length ≤ width := by
  obtain ⟨hfits, hsame⟩ | ⟨_, front, back, _, hlength, hcut⟩ := keepEnd_cases hwidth t
  · rwa [hsame]
  · rw [hcut, List.length_append, hlength]
    show 3 + (width - 3) ≤ width
    omega

theorem row_eq (width : Nat) (label fileType : Text) (cells : List Text) :
    row width label fileType cells =
      Text.left width label ++ ' ' :: Text.left typeWidth fileType ++
        cells.flatMap (' ' :: Text.right numberWidth ·) := by
  rw [row, Text.spaced_cons, List.flatMap_cons, List.flatMap_map, ← List.append_assoc]

theorem length_row {width : Nat} {label fileType : Text} {cells : List Text}
    (hlabel : label.length ≤ width) (htype : fileType.length ≤ typeWidth)
    (hcells : ∀ cell ∈ cells, cell.length ≤ numberWidth) (hsix : cells.length = 6) :
    (row width label fileType cells).length = width + fixedWidth := by
  rw [row_eq, List.length_append, List.length_append, List.length_cons,
    Text.length_left_of_le hlabel, Text.length_left_of_le htype, Text.length_flatMap_right hcells,
    hsix, fixedWidth]
  omega

theorem length_rule (width : Nat) : (rule width).length = width + fixedWidth :=
  List.length_replicate

theorem length_header {width : Nat} (hwidth : 4 ≤ width) :
    (header width).length = width + fixedWidth := by
  apply length_row
  · exact hwidth
  · show 4 ≤ 8
    omega
  · decide
  · rfl

theorem length_shownToken_le (f : Option FileType) :
    (FileType.shownToken f).length ≤ typeWidth := by
  cases f with
  | none => decide
  | some f => cases f <;> decide

/-- A count that fits its column is written with no more digits than the column has places. -/
theorem length_le_of_mem_cells {c : Counts} (h : ∀ n ∈ numbers c, n < 10 ^ numberWidth) :
    ∀ cell ∈ cells c, cell.length ≤ numberWidth := by
  intro cell hcell
  obtain ⟨n, hn, rfl⟩ := List.mem_map.mp hcell
  exact Text.length_decimal_le (Nat.zero_lt_succ _) (h n hn)

theorem length_fileRow {width : Nat} (hwidth : 3 ≤ width) (root p : Path) {r : Report}
    (h : ∀ n ∈ numbers r.counts, n < 10 ^ numberWidth) :
    (fileRow width root p r).length = width + fixedWidth :=
  length_row (length_keepEnd_le hwidth _) (length_shownToken_le r.fileType)
    (length_le_of_mem_cells h) rfl

theorem length_totalLabel (s : Summary) :
    (totalLabel s).length = (Text.decimal s.files.length).length + 14 := by
  have hlabel : ∀ t : Text,
      ("Total (".toList ++ t ++ " files)".toList).length = t.length + 14 := by
    intro t
    simp
  exact hlabel _

theorem length_totalRow {width : Nat} (hwidth : 24 ≤ width) {s : Summary}
    (h : ∀ n ∈ numbers s.totals, n < 10 ^ numberWidth)
    (hfiles : s.files.length < 10 ^ numberWidth) :
    (totalRow width s).length = width + fixedWidth := by
  have hplaces : numberWidth = 8 := rfl
  have hdigits := Text.length_decimal_le (by omega) hfiles
  have hlabel : (totalLabel s).length ≤ width := by
    rw [length_totalLabel]
    omega
  exact length_row hlabel (Nat.zero_le _) (length_le_of_mem_cells h) rfl

end Table

namespace Counts

/-- Any of the terms can be taken out of a sum. -/
theorem exists_sum_eq_add {c : Counts} {cs : List Counts} (h : c ∈ cs) :
    ∃ others, sum cs = c + others := by
  obtain ⟨before, after, rfl⟩ := List.append_of_mem h
  refine ⟨sum before + sum after, ?_⟩
  have hterm : sum (c :: after) = c + sum after := rfl
  rw [sum_append, hterm, ← add_assoc, add_comm (sum before) c, add_assoc]

/-- No number of a row is above the one that stands below it in the row of totals, but for the
number of code lines; and that is not above the number of all lines. -/
theorem numbers_lt_of_add {c others : Counts} {bound : Nat}
    (h : ∀ n ∈ Table.numbers (c + others), n < bound) : ∀ n ∈ Table.numbers c, n < bound := by
  simp only [Table.numbers, List.forall_mem_cons, total_add, blank_add, comment_add, todo_add,
    fixme_add, code] at h ⊢
  obtain ⟨htotal, hblank, hcomment, _, htodo, hfixme, _⟩ := h
  refine ⟨?_, ?_, ?_, ?_, ?_, ?_, nofun⟩
  all_goals omega

end Counts

/-- All lines of a table are as wide as the rules in it, if eight digits are enough for what is
counted in all files together. A path is shown whole if there is room for it; of a longer one so
many characters are shown that it ends where its column does, the three dots before it included. -/
theorem Table.lines_as_wide_as_rule {width : Nat} (hwidth : 24 ≤ width) (root : Path) {s : Summary}
    (hcounts : ∀ n ∈ numbers s.totals, n < 10 ^ 8) (hfiles : s.files.length < 10 ^ 8) :
    (rule width).length = width + 63 ∧ (header width).length = width + 63 ∧
    (∀ p r, (p, r) ∈ s.files → (fileRow width root p r).length = width + 63) ∧
    (totalRow width s).length = width + 63 ∧
    ∀ p r, ∃ cell others, fileRow width root p r = cell ++ ' ' :: others ∧
      let shown := shownPath p root
      (shown.length ≤ width → cell = shown ++ List.replicate (width - shown.length) ' ') ∧
      (width < shown.length → 3 ≤ width ∧ width - 3 ≤ shown.length ∧
        ∃ front back, shown = front ++ back ∧ back.length = width - 3 ∧
          cell = "...".toList ++ back) := by
  have hthree : 3 ≤ width := Nat.le_trans (by omega) hwidth
  refine ⟨length_rule width, length_header (Nat.le_trans (by omega) hwidth), ?_,
    length_totalRow hwidth hcounts hfiles, ?_⟩
  · intro p r hmem
    have hterm : r.counts ∈ s.files.map (·.2.counts) := List.mem_map_of_mem hmem
    obtain ⟨others, hsum⟩ := Counts.exists_sum_eq_add hterm
    rw [Summary.totals, hsum] at hcounts
    exact length_fileRow hthree root p (Counts.numbers_lt_of_add hcounts)
  · intro p r
    have hrow := row_eq width (keepEnd width (shownPath p root)) (FileType.shownToken r.fileType)
      (cells r.counts)
    rw [List.append_assoc, List.cons_append] at hrow
    refine ⟨_, _, hrow, ?_, ?_⟩
    · intro hfits
      rw [keepEnd, if_pos hfits]
      rfl
    · intro hlong
      obtain ⟨hfits, _⟩ | ⟨_, front, back, hshown, hlength, hcut⟩ :=
        keepEnd_cases hthree (shownPath p root)
      · omega
      · refine ⟨hthree, by omega, front, back, hshown, hlength, ?_⟩
        have hfull : ("...".toList ++ back).length = width := by
          rw [List.length_append, hlength]
          exact Nat.add_sub_cancel' hthree
        rw [hcut, Text.left, List.rightpad, hfull, Nat.sub_self, List.replicate_zero,
          List.append_nil]

/-- A path that is one character too long, which is where a byte cannot be read. -/
theorem Table.lines_as_wide_as_rule_long_path :
    let root := Path.ofText "/w".toList
    let p : Path :=
      ⟨Utf8.encode "/w/modules/first/".toList ++ 0xFF :: Utf8.encode "econd.html".toList⟩
    let r : Report := ⟨some .html, ⟨99999999, 1, 2, 0, 0⟩, []⟩
    let s : Summary := ⟨[(p, r)], 0⟩
    24 ≤ 24 ∧ (∀ n ∈ numbers s.totals, n < 10 ^ 8) ∧ s.files.length < 10 ^ 8 ∧ (p, r) ∈ s.files ∧
      (shownPath p root).length = 25 ∧ (fileRow 24 root p r).length = 87 ∧
      (totalRow 24 s).length = 87 ∧
      ∃ others,
        fileRow 24 root p r = "...les/first/\uFFFDecond.html".toList ++ ' ' :: others := by
  intro root p r s
  have hcounts : ∀ n ∈ numbers s.totals, n < 10 ^ 8 := by decide
  have hfiles : s.files.length < 10 ^ 8 := by decide
  have hmem : (p, r) ∈ s.files := List.mem_singleton.mpr rfl
  have hshown : shownPath p root = "modu".toList ++ "les/first/\uFFFDecond.html".toList := by decide
  have hlength : (shownPath p root).length = 25 := by rw [hshown]; rfl
  obtain ⟨_, _, hfile, htotal, hcells⟩ :=
    Table.lines_as_wide_as_rule (Nat.le_refl 24) root hcounts hfiles
  obtain ⟨cell, others, hrow, _, hcut⟩ := hcells p r
  obtain ⟨_, _, front, back, hparts, hback, rfl⟩ := hcut (by omega)
  obtain ⟨_, rfl⟩ := List.append_inj' (hshown.symm.trans hparts) hback.symm
  have hcell : "...".toList ++ "les/first/\uFFFDecond.html".toList =
      "...les/first/\uFFFDecond.html".toList := by decide
  rw [hcell] at hrow
  exact ⟨Nat.le_refl 24, hcounts, hfiles, hmem, hlength, hfile p r hmem, htotal, others, hrow⟩

end Marginalia
