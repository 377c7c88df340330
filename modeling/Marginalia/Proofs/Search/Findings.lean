import Mathlib.Algebra.GroupWithZero.Nat
import Marginalia.Proofs.Lines.Account
import Marginalia.Proofs.Search.Occurrences
/-!
What a search finds: each line that holds the term, once, in the order of the lines, with as many
occurrences as can be told apart in it.
-/

namespace Marginalia

namespace Search

variable {term : Text}

theorem search_eq_ok (hterm : term ≠ []) (lines : List Text) :
    search lines term = .ok ⟨term, (account term).told 1 lines⟩ :=
  if_neg hterm

/-- A search tells of the occurrences in each line and of nothing else in it. -/
theorem search_congr (hterm : term ≠ []) {lines others : List Text}
    (h : List.Forall₂ (fun s t => occurrences term s = occurrences term t) lines others) :
    search lines term = search others term := by
  have hlines : List.Forall₂ (fun s t => ∀ n,
      ((account term).tell s n).map id = ((account term).tell t n).map id) lines others := by
    refine h.imp ?_
    intro s t hst n
    simp only [account, hitsAt, hst]
  have htold := Account.map_told_congr hlines 1
  rw [List.map_id, List.map_id] at htold
  rw [search_eq_ok hterm, search_eq_ok hterm, htold]

theorem mem_hitsAt_iff {line : Text} {n : Nat} {hit : Hit} :
    hit ∈ hitsAt term line n ↔ hit = ⟨n, occurrences term line⟩ ∧ 0 < occurrences term line := by
  rw [hitsAt]
  split
  · rename_i hzero
    simp [hzero]
  · rename_i hne
    simp [Nat.pos_of_ne_zero hne]

theorem mem_told_iff {lines : List Text} {hit : Hit} :
    hit ∈ (account term).told 1 lines ↔ 0 < hit.line ∧ ∃ line, lines[hit.line - 1]? = some line ∧
      hit.count = occurrences term line ∧ 0 < occurrences term line := by
  have hline : ∀ line, hit ∈ (account term).tell line hit.line ↔
      hit.count = occurrences term line ∧ 0 < occurrences term line := by
    intro line
    obtain ⟨number, count⟩ := hit
    exact mem_hitsAt_iff.trans (by simp)
  rw [Account.mem_told_iff]
  exact and_congr_right fun _ => exists_congr fun line => and_congr_right fun _ => hline line

theorem pairwise_hits (term : Text) (lines : List Text) :
    ((account term).told 1 lines).Pairwise (·.line < ·.line) := by
  apply Account.pairwise_told
  · intro line n
    simp only [account, hitsAt]
    split
    · exact List.Pairwise.nil
    · exact List.pairwise_singleton _ _
  · intro x y hlt
    exact hlt

/-- What is counted in the hits is what is counted in the lines, also in those without a hit. -/
theorem sum_count_told (term : Text) (first : Nat) (lines : List Text) :
    (((account term).told first lines).map (·.count)).sum = (lines.map (occurrences term)).sum := by
  induction lines generalizing first with
  | nil => rfl
  | cons line lines ih =>
    have hline : (((account term).tell line first).map (·.count)).sum = occurrences term line := by
      simp only [account, hitsAt]
      split
      · rename_i hzero
        rw [hzero]
        rfl
      · simp
    rw [Account.told_cons, List.map_append, List.sum_append_nat, hline, ih (first + 1),
      List.map_cons, List.sum_cons]

end Search

theorem Findings.total_eq_sum (f : Findings) : f.total = (f.hits.map (·.count)).sum := by
  rw [List.sum_eq_foldr, List.foldr_map]
  rfl

theorem Findings.total_eq_zero_iff {f : Findings} :
    f.total = 0 ↔ ∀ hit ∈ f.hits, hit.count = 0 := by
  rw [total_eq_sum, List.sum_eq_zero_iff_forall_eq_nat]
  exact List.forall_mem_map

namespace Search

/-- A search for a term that is not empty tells of just the lines that hold the term, in order. It
counts what a scan from left to right takes in a line, and no choice of occurrences that are apart
from each other has more. An empty term is refused, whatever the lines are. -/
theorem search_counts_most {term : Text} (hterm : term ≠ []) (lines : List Text) :
    (∃ f, search lines term = .ok f ∧ f.term = term ∧
      f.hits.Pairwise (·.line < ·.line) ∧
      (∀ hit, hit ∈ f.hits ↔
        0 < hit.line ∧ ∃ line, lines[hit.line - 1]? = some line ∧ term <:+: line ∧
          (∃ places, Scanned term line 0 places ∧ places.length = hit.count) ∧
          IsGreatest {n | ∃ places, Apart term line places ∧ places.card = n} hit.count) ∧
      f.total = (f.hits.map (·.count)).sum ∧
      (f.total = 0 ↔ ∀ line ∈ lines, ¬ term <:+: line)) ∧
    ∃ e, search lines [] = .error e ∧
      e.message = Failure.invalidArgument "search term must not be empty".toList := by
  refine ⟨⟨_, search_eq_ok hterm lines, rfl, pairwise_hits term lines, ?_,
    Findings.total_eq_sum _, ?_⟩, .emptyTerm, rfl, rfl⟩
  · intro hit
    rw [mem_told_iff]
    apply and_congr_right
    intro _
    apply exists_congr
    intro line
    apply and_congr_right
    intro _
    rw [← occurrences_pos_iff hterm line]
    have hmost := isGreatest_occurrences hterm line
    constructor
    · rintro ⟨hcount, hpos⟩
      rw [hcount]
      exact ⟨hpos, scanned_of_occurrences hterm line, hmost⟩
    · rintro ⟨hpos, _, hgreatest⟩
      exact ⟨hgreatest.unique hmost, hpos⟩
  · rw [Findings.total_eq_zero_iff]
    constructor
    · intro hzero line hline hin
      obtain ⟨i, hi⟩ := List.mem_iff_getElem?.mp hline
      have hpos := (occurrences_pos_iff hterm line).mpr hin
      have hcount := hzero ⟨i + 1, occurrences term line⟩
        (mem_told_iff.mpr ⟨Nat.succ_pos i, line, hi, rfl, hpos⟩)
      exact Nat.ne_of_gt hpos hcount
    · intro hnone hit hhit
      obtain ⟨_, line, hget, _, hpos⟩ := mem_told_iff.mp hhit
      exact absurd ((occurrences_pos_iff hterm line).mp hpos)
        (hnone line (List.mem_of_getElem? hget))

/-- A term that overlaps itself is counted once where it stands twice, and no choice does better. -/
theorem search_counts_most_overlapping :
    let term := "éaé".toList
    let lines := ["éaéaé".toList, "ea".toList, "éaéaéaé".toList]
    term ≠ [] ∧
      (∃ f, search lines term = .ok f ∧ f.hits = [⟨1, 1⟩, ⟨3, 2⟩] ∧ f.total = 3) ∧
      IsGreatest {n | ∃ places, Apart term "éaéaé".toList places ∧ places.card = n} 1 := by
  intro term lines
  have hterm : term ≠ [] := by decide
  obtain ⟨⟨f, hf, _, _, hhits, _⟩, _⟩ := search_counts_most hterm lines
  have hfound : f = ⟨term, [⟨1, 1⟩, ⟨3, 2⟩]⟩ := Except.ok.inj (hf.symm.trans (by decide))
  obtain ⟨_, line, hline, _, _, hmost⟩ := (hhits ⟨1, 1⟩).mp (by rw [hfound]; decide)
  obtain rfl := Option.some.inj hline
  exact ⟨hterm, ⟨f, hf, by rw [hfound], by rw [hfound]; rfl⟩, hmost⟩

end Search

end Marginalia
