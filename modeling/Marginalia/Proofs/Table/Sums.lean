import Mathlib.Algebra.BigOperators.Group.List.Basic
import Mathlib.Algebra.GroupWithZero.Nat
import Marginalia.Proofs.Report.Classes
import Marginalia.Proofs.Scan.Outcome
import Marginalia.Proofs.Table.Layout
/-!
The sums in a table. The number of code lines is worked out anew in each row, that of the totals
included; it adds up like the counts do, because no report takes more lines off than there are.
-/

namespace Marginalia

namespace Counts

/-- The blank lines and then the comments can be taken off the number of all lines. -/
structure Balanced (c : Counts) : Prop where
  blank_le : c.blank ≤ c.total
  comment_le : c.comment ≤ c.total - c.blank

variable {a b : Counts}

theorem balanced_zero : Balanced 0 := ⟨Nat.le_refl 0, Nat.le_refl 0⟩

theorem Balanced.total_eq (h : a.Balanced) : a.total = a.blank + a.comment + a.code := by
  have hblank := h.blank_le
  have hcomment := h.comment_le
  rw [code]
  omega

theorem Balanced.add (ha : a.Balanced) (hb : b.Balanced) : (a + b).Balanced := by
  have htotal := ha.total_eq
  have hother := hb.total_eq
  constructor
  · simp only [total_add, blank_add]
    omega
  · simp only [total_add, blank_add, comment_add]
    omega

theorem Balanced.code_add (ha : a.Balanced) (hb : b.Balanced) : (a + b).code = a.code + b.code := by
  have htotal := ha.total_eq
  have hother := hb.total_eq
  rw [code, total_add, blank_add, comment_add]
  omega

theorem balanced_sum {cs : List Counts} (h : ∀ c ∈ cs, c.Balanced) : (sum cs).Balanced := by
  induction cs with
  | nil => exact balanced_zero
  | cons c cs ih =>
    have hrest := ih fun other hother => h other (List.mem_cons_of_mem _ hother)
    exact (h c List.mem_cons_self).add hrest

/-- Whatever adds up can be counted in each of the terms. -/
theorem count_sum {count : Counts → Nat} (hadd : ∀ a b, count (a + b) = count a + count b)
    (hzero : count 0 = 0) (cs : List Counts) : count (sum cs) = (cs.map count).sum := by
  induction cs with
  | nil => exact hzero
  | cons c cs ih =>
    have hsum : sum (c :: cs) = c + sum cs := rfl
    rw [hsum, hadd, ih, List.map_cons, List.sum_cons]

end Counts

theorem CommentRule.balanced_countLines {rule : CommentRule} (hrule : [] ∉ rule.openings)
    (lines : List Text) : (rule.countLines lines).Balanced := by
  have hlength := length_eq_countP_is hrule lines
  constructor
  · rw [total_countLines, blank_countLines hrule]
    omega
  · rw [total_countLines, blank_countLines hrule, comment_countLines hrule]
    omega

namespace Disk

/-- What a scan returns is the summary of its visits. -/
theorem exists_visits_of_survey {d : Disk} {p : Path} {o : ScanOptions} {filespec : Option Text}
    {s : Summary} (h : d.survey p o filespec = .ok s) :
    ∃ given root visits, s = Scan.summary given root visits := by
  cases hlook : d.lookUp p with
  | error fault =>
    rw [survey_of_lookUp_error hlook] at h
    contradiction
  | ok found =>
    rw [survey_of_lookUp hlook] at h
    cases hpattern : Files.patternOf filespec with
    | error e =>
      rw [hpattern] at h
      contradiction
    | ok pattern =>
      rw [hpattern] at h
      exact ⟨_, _, _, Scan.eq_summary_of_outcome h⟩

theorem balanced_of_survey {d : Disk} {p : Path} {o : ScanOptions} {filespec : Option Text}
    {s : Summary} (h : d.survey p o filespec = .ok s) : ∀ f ∈ s.files, f.2.counts.Balanced := by
  obtain ⟨given, root, visits, rfl⟩ := exists_visits_of_survey h
  intro f hf
  obtain ⟨_, bytes, _, _, hreport⟩ := Scan.mem_files_summary_iff.mp hf
  rw [hreport]
  exact CommentRule.balanced_countLines (CommentRule.nil_not_mem_openings _) _

end Disk

namespace Table

/-- The sums of six columns. -/
def columnSums (rows : List (List Nat)) : List Nat :=
  rows.foldr (List.zipWith (· + ·)) (List.replicate 6 0)

theorem numbers_add {a b : Counts} (ha : a.Balanced) (hb : b.Balanced) :
    numbers (a + b) = List.zipWith (· + ·) (numbers a) (numbers b) := by
  rw [numbers, ha.code_add hb]
  rfl

theorem numbers_sum {cs : List Counts} (h : ∀ c ∈ cs, c.Balanced) :
    numbers (Counts.sum cs) = columnSums (cs.map numbers) := by
  induction cs with
  | nil => rfl
  | cons c cs ih =>
    have hrest : ∀ other ∈ cs, other.Balanced :=
      fun other hother => h other (List.mem_cons_of_mem _ hother)
    have hsum : Counts.sum (c :: cs) = c + Counts.sum cs := rfl
    rw [hsum, numbers_add (h c List.mem_cons_self) (Counts.balanced_sum hrest), ih hrest]
    rfl

/-- The numbers of a row, read from its end. -/
def numbersOf (line : Text) : List Nat := Text.numbersAtEnd 6 line

theorem numbersOf_row (width : Nat) (label fileType : Text) (c : Counts) :
    numbersOf (row width label fileType (cells c)) = numbers c := by
  rw [row_eq]
  exact Text.numbersAtEnd_append numberWidth _ (numbers c)

/-- What is in the row of a file: the path as far as there is room for it, the type, and at the end
the numbers. -/
def IsRowOf (width : Nat) (root : Path) (f : Path × Report) (line : Text) : Prop :=
  Text.left width (keepEnd width (shownPath f.1 root)) ++
      ' ' :: Text.left typeWidth (FileType.shownToken f.2.fileType) <+: line ∧
    numbersOf line = numbers f.2.counts

theorem isRowOf_fileRow (width : Nat) (root : Path) (f : Path × Report) :
    IsRowOf width root f (fileRow width root f.1 f.2) := by
  refine ⟨?_, numbersOf_row _ _ _ _⟩
  rw [fileRow, row_eq]
  exact List.prefix_append _ _

theorem map_numbersOf {width : Nat} {root : Path} {files : List (Path × Report)}
    {rows : List Text} (h : List.Forall₂ (IsRowOf width root) files rows) :
    rows.map numbersOf = (files.map (·.2.counts)).map numbers := by
  induction h with
  | nil => rfl
  | cons hrow _ ih =>
    simp only [List.map_cons, ih]
    rw [hrow.2]

theorem totalLabel_prefix (width : Nat) (s : Summary) : totalLabel s <+: totalRow width s := by
  have hlabel : ∀ label : Text, label <+: row width label [] (cells s.totals) := by
    intro label
    rw [row_eq, List.append_assoc]
    exact (List.prefix_append label _).trans (List.prefix_append _ _)
  exact hlabel _

end Table

/-- In the table of a scan there is a row for each file, in the order of the summary, and below them
the row of totals. In none of them is more taken off the number of all lines than there is, so each
row adds up from its blank, comment and code lines, and each number of the last row is the sum of
those above it. This is so of the code lines too, which are not summed up but counted from the
totals. -/
theorem Disk.survey_table_adds_up {d : Disk} {p : Path} {o : ScanOptions} {filespec : Option Text}
    {s : Summary} (h : d.survey p o filespec = .ok s) (ink : Ink) (width : Nat) (root : Path) :
    (∀ f ∈ s.files, f.2.counts.Balanced) ∧ s.totals.Balanced ∧
    s.totals.total = (s.files.map (·.2.counts.total)).sum ∧
    s.totals.blank = (s.files.map (·.2.counts.blank)).sum ∧
    s.totals.comment = (s.files.map (·.2.counts.comment)).sum ∧
    s.totals.todo = (s.files.map (·.2.counts.todo)).sum ∧
    s.totals.fixme = (s.files.map (·.2.counts.fixme)).sum ∧
    ∃ rows last,
      Table.render ink width root s =
        Text.line [] ++ Text.line ["Per-file analysis:".toList] ++
        Text.line [Table.rule width] ++ Text.line [Table.header width] ++
        Text.line [Table.rule width] ++ rows.flatMap (Text.line [·]) ++
        Text.line [Table.rule width] ++ Text.line [last] ++ Table.warningLines ink s ∧
      List.Forall₂ (Table.IsRowOf width root) s.files rows ∧
      (∀ row ∈ rows ++ [last], ∃ total blank comment code todo fixme,
        Table.numbersOf row = [total, blank, comment, code, todo, fixme] ∧
          total = blank + comment + code) ∧
      "Total (".toList ++ Text.decimal rows.length ++ " files)".toList <+: last ∧
      Table.numbersOf last = Table.columnSums (rows.map Table.numbersOf) := by
  have hbalanced := balanced_of_survey h
  have hterms : ∀ c ∈ s.files.map (·.2.counts), c.Balanced := List.forall_mem_map.mpr hbalanced
  have hsum : ∀ count : Counts → Nat, (∀ a b, count (a + b) = count a + count b) → count 0 = 0 →
      count s.totals = (s.files.map (count ·.2.counts)).sum := by
    intro count hadd hzero
    rw [Summary.totals, Counts.count_sum hadd hzero, List.map_map]
    rfl
  have hrows : List.Forall₂ (Table.IsRowOf width root) s.files
      (s.files.map fun f => Table.fileRow width root f.1 f.2) := by
    rw [List.forall₂_map_right_iff, List.forall₂_same]
    exact fun f _ => Table.isRowOf_fileRow width root f
  have htotals : s.totals.Balanced := Counts.balanced_sum hterms
  refine ⟨hbalanced, htotals, hsum _ Counts.total_add rfl,
    hsum _ Counts.blank_add rfl, hsum _ Counts.comment_add rfl, hsum _ Counts.todo_add rfl,
    hsum _ Counts.fixme_add rfl, s.files.map (fun f => Table.fileRow width root f.1 f.2),
    Table.totalRow width s, ?_, ?_, ?_, ?_, ?_⟩
  · simp [Table.render, Table.rows]
  · exact hrows
  · intro row hrow
    rcases List.mem_append.mp hrow with hfile | hlast
    · obtain ⟨f, hf, rfl⟩ := List.mem_map.mp hfile
      exact ⟨_, _, _, _, _, _, Table.numbersOf_row _ _ _ _, (hbalanced f hf).total_eq⟩
    · rw [List.mem_singleton.mp hlast]
      exact ⟨_, _, _, _, _, _, Table.numbersOf_row _ _ _ _, htotals.total_eq⟩
  · rw [List.length_map]
    exact Table.totalLabel_prefix width s
  · rw [Table.map_numbersOf hrows, ← Table.numbers_sum hterms]
    exact Table.numbersOf_row _ _ _ _

/-- A disk with a script that has a blank line in it, and a source that is a comment throughout. -/
def Disk.measured : Disk where
  home := [Utf8.encode "w".toList]
  top := .directory 0o755 [(Utf8.encode "w".toList, .directory 0o755 [
    (Utf8.encode "a.py".toList, .file 0o644 (Utf8.encode "# FIXME\n\nx\n".toList)),
    (Utf8.encode "b.js".toList, .file 0o644 (Utf8.encode "// TODO\n".toList))])]

theorem Disk.survey_measured : ∃ s, Disk.measured.survey (.ofText "/w".toList) {} none = .ok s ∧
    s.files.map (·.2.counts) = [⟨3, 1, 1, 0, 1⟩, ⟨1, 0, 1, 1, 0⟩] := by
  refine ⟨_, rfl, ?_⟩
  rw [Scan.summary, Scan.sorted, List.mergeSort_of_pairwise]
  · decide +kernel
  · decide +kernel

/-- The one line of code, which is in the script, is also in the row of totals. -/
theorem Disk.survey_table_adds_up_measured : ∃ s rows last,
    Disk.measured.survey (.ofText "/w".toList) {} none = .ok s ∧ s.totals = ⟨4, 1, 2, 1, 1⟩ ∧
      List.Forall₂ (Table.IsRowOf 40 (.ofText "/w".toList)) s.files rows ∧
      rows.map Table.numbersOf = [[3, 1, 1, 1, 0, 1], [1, 0, 1, 0, 1, 0]] ∧
      Table.numbersOf last = [4, 1, 2, 1, 1, 1] := by
  obtain ⟨s, hs, hcounts⟩ := Disk.survey_measured
  have htotals : s.totals = ⟨4, 1, 2, 1, 1⟩ := by
    rw [Summary.totals, hcounts]
    rfl
  obtain ⟨_, _, _, _, _, _, _, rows, last, _, hrows, _, _, hlast⟩ :=
    Disk.survey_table_adds_up hs .plain 40 (.ofText "/w".toList)
  have hnumbers := Table.map_numbersOf hrows
  rw [hcounts] at hnumbers
  rw [hnumbers] at hlast
  exact ⟨s, rows, last, hs, htotals, hrows, hnumbers, hlast⟩

end Marginalia
