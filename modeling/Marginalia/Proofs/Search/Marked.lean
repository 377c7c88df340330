import Mathlib.Algebra.BigOperators.Group.List.Basic
import Marginalia.Proofs.Report.Classes
import Marginalia.Proofs.Search.Findings
/-!
The sightings of a report beside the hits of a search for the same word. A report passes over the
lines that are no comments before it looks for a word, and a search counts the word in every line;
yet of the comments both tell the same.
-/

namespace Marginalia

/-- To keep what is told of some lines only is to tell of these only. -/
theorem Account.filter_told {β : Type} (a : Account β) (p : Text → Bool) (first : Nat)
    (lines : List Text) :
    (a.told first lines).filter (fun x => (lines[a.number x - first]?).any p) =
      (lines.zipIdx first).flatMap fun (line, n) => if p line then a.tell line n else [] := by
  induction lines generalizing first with
  | nil => rfl
  | cons line lines ih =>
    have hline : (a.tell line first).filter
        (fun x => ((line :: lines)[a.number x - first]?).any p) =
        if p line then a.tell line first else [] := by
      have hnumber : ∀ x ∈ a.tell line first,
          ((line :: lines)[a.number x - first]?).any p = p line := by
        intro x hx
        rw [a.number_of_mem_tell hx, Nat.sub_self]
        rfl
      rw [List.filter_congr hnumber]
      cases p line <;> simp
    have hbehind : ∀ x ∈ a.told (first + 1) lines,
        ((line :: lines)[a.number x - first]?).any p =
          (lines[a.number x - (first + 1)]?).any p := by
      intro x hx
      have hle := first_le_of_mem_told hx
      have hindex : a.number x - first = a.number x - (first + 1) + 1 := by omega
      rw [hindex, List.getElem?_cons_succ]
    rw [told_cons, List.filter_append, hline, List.filter_congr hbehind, ih (first + 1),
      List.zipIdx_cons, List.flatMap_cons]

/-- On a comment a marker is sighted just if its word is found there, and then once. -/
theorem CommentRule.numbers_sightingsAt (rule : CommentRule) (m : Marker) (line : Text) (n : Nat) :
    ((rule.sightingsAt line n).filter (·.marker = m)).map (·.line) =
      (if rule.opens line then Search.hitsAt m.word line n else []).map (·.line) := by
  have hword : m.word ≠ [] := by cases m <;> decide
  have hfound : m.isIn line = true ↔ ¬ Search.occurrences m.word line = 0 := by
    rw [Marker.isIn, Text.includes_iff, ← Search.occurrences_pos_iff hword, Nat.pos_iff_ne_zero]
  cases hopens : rule.opens line with
  | false =>
    have hcode : rule.classify line ≠ .comment := by
      rw [Ne, rule.classify_eq_comment_iff, hopens]
      exact Bool.false_ne_true
    simp [sightingsAt, markersIn, hcode]
  | true =>
    have hcomment := (rule.classify_eq_comment_iff line).mpr hopens
    have hone : (rule.markersIn line).filter (· = m) = if m.isIn line then [m] else [] := by
      rw [markersIn, if_pos hcomment, List.filter_filter]
      cases m <;> cases hin : Marker.isIn _ line <;> simp [Marker.all, hin]
    have hnumbers : ((rule.sightingsAt line n).filter (·.marker = m)).map (·.line) =
        ((rule.markersIn line).filter (· = m)).map fun _ => n := by
      rw [sightingsAt, List.filter_map, List.map_map]
      rfl
    rw [hnumbers, hone, if_pos rfl, Search.hitsAt]
    by_cases hin : m.isIn line = true
    · rw [if_pos hin, if_neg (hfound.mp hin)]
      rfl
    · rw [if_neg hin, if_pos (not_not.mp (mt hfound.mpr hin))]
      rfl

theorem Findings.length_hits_le_total {f : Findings} (h : ∀ hit ∈ f.hits, 0 < hit.count) :
    f.hits.length ≤ f.total := by
  rw [total_eq_sum, ← List.length_map (·.count)]
  apply List.length_le_sum_of_one_le
  exact List.forall_mem_map.mpr h

/-- A report sights a marker in just those lines in which a search finds its word and that are
comments under the rule of the report, in the same order. So no more sightings are counted than the
search has hits, or occurrences in all. -/
theorem Report.linesOf_eq_hits (token : Text) (lines : List Text) (m : Marker) :
    let rule := CommentRule.ofToken token
    let r := Report.ofToken token lines
    ∃ f, search lines m.word = .ok f ∧
      r.linesOf m = (f.hits.map (·.line)).filter (fun n => (lines[n - 1]?).any rule.opens) ∧
      r.counts.marked m = (r.linesOf m).length ∧
      r.counts.marked m ≤ f.hits.length ∧ f.hits.length ≤ f.total := by
  intro rule r
  have hword : m.word ≠ [] := by cases m <;> decide
  have hlines : r.linesOf m = (((Search.account m.word).told 1 lines).map (·.line)).filter
      (fun n => (lines[n - 1]?).any rule.opens) := by
    have hcomments := (Search.account m.word).filter_told rule.opens 1 lines
    have hnumber : (Search.account m.word).number = Hit.line := rfl
    rw [hnumber] at hcomments
    have hsightings : r.linesOf m =
        (((lines.zipIdx 1).flatMap fun (line, n) => rule.sightingsAt line n).filter
          (·.marker = m)).map (·.line) := rfl
    rw [hsightings, List.filter_map, Function.comp_def, hcomments, List.filter_flatMap,
      List.map_flatMap, List.map_flatMap]
    apply List.flatMap_congr
    intro ⟨line, n⟩ _
    exact rule.numbers_sightingsAt m line n
  have hcount : r.counts.marked m = (r.linesOf m).length := by
    have hmarked := rule.marked_countLines 1 lines m
    rwa [List.countP_eq_length_filter, ← List.length_map (·.line)] at hmarked
  refine ⟨_, Search.search_eq_ok hword lines, hlines, hcount, ?_, ?_⟩
  · calc r.counts.marked m
        ≤ (((Search.account m.word).told 1 lines).map (·.line)).length := by
          rw [hcount, hlines]
          exact List.length_filter_le _ _
      _ = ((Search.account m.word).told 1 lines).length := List.length_map _
  · apply Findings.length_hits_le_total
    intro hit hhit
    obtain ⟨_, _, _, hcount, hpos⟩ := Search.mem_told_iff.mp hhit
    exact hcount ▸ hpos

end Marginalia
