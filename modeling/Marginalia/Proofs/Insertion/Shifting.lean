import Marginalia.Proofs.LineReader.Numbering
import Marginalia.Proofs.Report.Classes
import Marginalia.Proofs.Search.Findings
/-!
Reports and searches before and after a comment is put in. The lines of the comment are counted in,
and every line number that is shown moves by as many lines as come in above it.
-/

namespace Marginalia

namespace CommentRule

variable {rule : CommentRule}

theorem countLines_splice (rule : CommentRule) (lines : List Text) (n : Nat) (others : List Text) :
    rule.countLines (Insertion.splice lines n others) =
      rule.countLines lines + rule.countLines others := by
  calc rule.countLines (Insertion.splice lines n others)
      = rule.countLines (lines.take n) + rule.countLines others +
          rule.countLines (lines.drop n) := by
        rw [Insertion.splice, countLines_append, countLines_append]
    _ = rule.countLines (lines.take n) + rule.countLines (lines.drop n) +
          rule.countLines others := by
        rw [Counts.add_assoc, Counts.add_comm (rule.countLines others), ← Counts.add_assoc]
    _ = rule.countLines lines + rule.countLines others := by
        rw [← countLines_append, List.take_append_drop]

/-- Code is what the other counts leave over, and still adds up: they never take more than there
is. -/
theorem code_splice (hrule : [] ∉ rule.openings) (lines : List Text) (n : Nat)
    (others : List Text) :
    (rule.countLines (Insertion.splice lines n others)).code =
      (rule.countLines lines).code + (rule.countLines others).code := by
  have hlines : lines.countP (rule.Is · .code) =
      (lines.take n).countP (rule.Is · .code) + (lines.drop n).countP (rule.Is · .code) := by
    rw [← List.countP_append, List.take_append_drop]
  rw [code_countLines hrule, code_countLines hrule, code_countLines hrule, Insertion.splice,
    List.countP_append, List.countP_append]
  omega

end CommentRule

theorem Search.sum_occurrences_splice (term : Text) (lines : List Text) (n : Nat)
    (others : List Text) :
    ((Insertion.splice lines n others).map (occurrences term)).sum =
      (lines.map (occurrences term)).sum + (others.map (occurrences term)).sum := by
  have hlines := congrArg (fun l => (l.map (occurrences term)).sum) (List.take_append_drop n lines)
  simp only [List.map_append, List.sum_append_nat] at hlines
  rw [Insertion.splice]
  simp only [List.map_append, List.sum_append_nat]
  omega

namespace Insertion

/-- A comment before line `n` adds the counts of its own lines to those of a report. The sightings
before line `n` stay, those in the comment come next, and the others move on by its lines. The hits
of a search do likewise. -/
theorem insert_shifts {lines : List Text} {n : Nat} (hfirst : 0 < n) (hlast : n ≤ lines.length)
    (comment token : Text) {term : Text} (hterm : term ≠ []) :
    let pieces := (comment.splitOn '\n').map Text.bare
    ∃ result, insert lines n comment = .ok result ∧
      (let before := Report.ofToken token lines
      let added := Report.ofToken token pieces
      let after := Report.ofToken token result
      after.counts = before.counts + added.counts ∧
      after.counts.code = before.counts.code + added.counts.code ∧
      after.sightings = before.sightings.filter (·.line < n) ++
        added.sightings.map (Sighting.moved (n - 1)) ++
        (before.sightings.filter (n ≤ ·.line)).map (Sighting.moved pieces.length)) ∧
      ∃ before added after, search lines term = .ok before ∧ search pieces term = .ok added ∧
        search result term = .ok after ∧
        after.total = before.total + added.total ∧
        after.hits = before.hits.filter (·.line < n) ++ added.hits.map (Hit.moved (n - 1)) ++
          (before.hits.filter (n ≤ ·.line)).map (Hit.moved pieces.length) := by
  intro pieces
  have hrule := CommentRule.nil_not_mem_openings (FileType.ofToken? token)
  refine ⟨_, insert_eq_ok_iff.mpr ⟨hfirst, hlast, rfl⟩, ⟨?_, ?_, ?_⟩,
    _, _, _, Search.search_eq_ok hterm _, Search.search_eq_ok hterm _, Search.search_eq_ok hterm _,
    ?_, ?_⟩
  · exact CommentRule.countLines_splice _ lines (n - 1) pieces
  · exact CommentRule.code_splice hrule lines (n - 1) pieces
  · exact Account.told_splice (a := (CommentRule.ofToken token).account) hfirst hlast pieces
  · simp only [Findings.total_eq_sum, Search.sum_count_told]
    exact Search.sum_occurrences_splice term lines (n - 1) pieces
  · exact Account.told_splice (a := Search.account term) hfirst hlast pieces

/-- A block of three lines between two lines with a sighting each. -/
theorem insert_shifts_block :
    let lines := ["# TODO a".toList, "# FIXME TODO b".toList]
    let comment := "\"\"\"\r\n# TODO c\n\"\"\"".toList
    0 < 2 ∧ 2 ≤ lines.length ∧ "TODO".toList ≠ [] ∧
      ∃ result, insert lines 2 comment = .ok result ∧
        (Report.ofToken "py".toList result).counts = ⟨5, 0, 5, 3, 1⟩ ∧
        (Report.ofToken "py".toList result).linesOf .todo = [1, 3, 5] ∧
        ∃ found, search result "TODO".toList = .ok found ∧ found.total = 3 ∧
          found.hits = [⟨1, 1⟩, ⟨3, 1⟩, ⟨5, 1⟩] := by
  intro lines comment
  have hlast : 2 ≤ lines.length := by decide
  have hterm : "TODO".toList ≠ [] := by decide
  obtain ⟨result, hresult, ⟨hcounts, _, hsightings⟩, before, added, after, hbefore, hadded, hafter,
    htotal, hhits⟩ := insert_shifts (by decide) hlast comment "py".toList hterm
  obtain rfl : before = ⟨"TODO".toList, [⟨1, 1⟩, ⟨2, 1⟩]⟩ :=
    Except.ok.inj (hbefore.symm.trans (by decide))
  obtain rfl : added = ⟨"TODO".toList, [⟨2, 1⟩]⟩ := Except.ok.inj (hadded.symm.trans (by decide))
  refine ⟨by decide, hlast, hterm, result, hresult, hcounts.trans (by decide), ?_, after, hafter,
    htotal, hhits⟩
  rw [Report.linesOf, hsightings]
  decide

end Insertion

end Marginalia
