import Mathlib.Data.Finset.Max
import Mathlib.Order.Bounds.Basic
import Marginalia.Proofs.Text.Words
import Marginalia.Search
/-!
Counting the occurrences of a term in a line from left to right. No choice of occurrences that do
not overlap has more of them than the scan: of any choice, the first one can be given up for the one
that the scan takes, for that one ends no later.
-/

namespace Marginalia.Search

/-- Places at which a term stands in a line, no two of them sharing a character of the line. -/
structure Apart (term line : Text) (places : Finset Nat) : Prop where
  stands : ∀ i ∈ places, term <+: line.drop i
  apart : ∀ i ∈ places, ∀ j ∈ places, i < j → i + term.length ≤ j

/-- The places that a scan of the line takes from `start` on: each is the first one at which the
term stands, and the scan goes on behind the whole term. -/
inductive Scanned (term line : Text) : Nat → List Nat → Prop where
  | done {start : Nat} (none : ∀ i, start ≤ i → ¬ term <+: line.drop i) : Scanned term line start []
  | found {start i : Nat} {places : List Nat} (le : start ≤ i) (stands : term <+: line.drop i)
      (first : ∀ j, start ≤ j → j < i → ¬ term <+: line.drop j)
      (rest : Scanned term line (i + term.length) places) : Scanned term line start (i :: places)

variable {term line : Text}

theorem Apart.subset {places fewer : Finset Nat} (h : Apart term line places)
    (hsub : fewer ⊆ places) : Apart term line fewer where
  stands i hi := h.stands i (hsub hi)
  apart i hi j hj := h.apart i (hsub hi) j (hsub hj)

theorem Apart.insert {places : Finset Nat} {i : Nat} (h : Apart term line places)
    (hi : term <+: line.drop i) (hbehind : ∀ j ∈ places, i + term.length ≤ j) :
    Apart term line (insert i places) := by
  refine ⟨?_, ?_⟩
  · intro j hj
    rcases Finset.mem_insert.mp hj with rfl | hold
    · exact hi
    · exact h.stands j hold
  · intro j hj k hk hlt
    rcases Finset.mem_insert.mp hj with rfl | hold
    · rcases Finset.mem_insert.mp hk with rfl | hother
      · omega
      · exact hbehind k hother
    · rcases Finset.mem_insert.mp hk with rfl | hother
      · have hle := hbehind j hold
        omega
      · exact h.apart j hold k hother hlt

namespace Scanned

/-- A place at which the term does not stand can be scanned too. -/
theorem back {start : Nat} {places : List Nat} (h : Scanned term line (start + 1) places)
    (hstart : ¬ term <+: line.drop start) : Scanned term line start places := by
  have hno : ∀ {j}, start ≤ j → (start + 1 ≤ j → ¬ term <+: line.drop j) →
      ¬ term <+: line.drop j := by
    intro j hj hnext
    rcases Nat.eq_or_lt_of_le hj with rfl | hlt
    · exact hstart
    · exact hnext hlt
  cases h with
  | done none => exact .done (fun i hi => hno hi (none i))
  | found le stands first rest =>
    exact .found (by omega) stands (fun j hj hlt => hno hj (fun hle => first j hle hlt)) rest

/-- The scan itself makes a choice. -/
theorem exists_apart (hterm : term ≠ []) {start : Nat} {places : List Nat}
    (h : Scanned term line start places) :
    ∃ chosen, Apart term line chosen ∧ chosen.card = places.length ∧ ∀ i ∈ chosen, start ≤ i := by
  induction h with
  | done none => exact ⟨∅, ⟨by simp, by simp⟩, rfl, by simp⟩
  | @found start i places le stands first rest ih =>
    obtain ⟨chosen, hchosen, hcard, hfrom⟩ := ih
    have hlength := List.length_pos_iff.mpr hterm
    have hnew : i ∉ chosen := by
      intro hm
      have hle := hfrom i hm
      omega
    refine ⟨insert i chosen, hchosen.insert stands hfrom, ?_, ?_⟩
    · rw [Finset.card_insert_of_notMem hnew, hcard, List.length_cons]
    · intro j hj
      rcases Finset.mem_insert.mp hj with rfl | hj
      · exact le
      · have hle := hfrom j hj
        omega

/-- No choice among the places from `start` on has more of them than the scan takes. -/
theorem card_le {start : Nat} {places : List Nat} (h : Scanned term line start places)
    {chosen : Finset Nat} (hchosen : Apart term line chosen) (hfrom : ∀ i ∈ chosen, start ≤ i) :
    chosen.card ≤ places.length := by
  induction h generalizing chosen with
  | done none =>
    have hempty : chosen = ∅ := Finset.eq_empty_of_forall_notMem
      (fun i hi => none i (hfrom i hi) (hchosen.stands i hi))
    simp [hempty]
  | @found start i places le stands first rest ih =>
    rcases chosen.eq_empty_or_nonempty with rfl | hne
    · simp
    -- The first place that is chosen lies no further left than the place that the scan takes.
    have hmem := chosen.min'_mem hne
    have hleft : i ≤ chosen.min' hne := by
      apply Nat.le_of_not_lt
      intro hlt
      exact first _ (hfrom _ hmem) hlt (hchosen.stands _ hmem)
    have hothers := ih (hchosen.subset (chosen.erase_subset (chosen.min' hne))) (by
      intro j hj
      obtain ⟨hj, hm⟩ := Finset.mem_erase.mp hj
      have hlt := Nat.lt_of_le_of_ne (chosen.min'_le j hm) hj.symm
      have hbehind := hchosen.apart _ hmem j hm hlt
      omega)
    rw [Finset.card_erase_of_mem hmem] at hothers
    rw [List.length_cons]
    omega

end Scanned

theorem occurrencesAfter_of_stands {c : Char} {rest : Text} (h : term <+: c :: rest) :
    occurrencesAfter term 0 (c :: rest) = occurrencesAfter term (term.length - 1) rest + 1 := by
  rw [occurrencesAfter, if_pos (List.isPrefixOf_iff_prefix.mpr h)]

theorem occurrencesAfter_of_not_stands {c : Char} {rest : Text} (h : ¬ term <+: c :: rest) :
    occurrencesAfter term 0 (c :: rest) = occurrencesAfter term 0 rest := by
  rw [occurrencesAfter, if_neg (fun hp => h (List.isPrefixOf_iff_prefix.mp hp))]

/-- A character that the term does not have adds nothing at the end of a line. -/
theorem occurrencesAfter_concat {c : Char} (hterm : term ≠ []) (hc : c ∉ term) (skip : Nat)
    (line : Text) : occurrencesAfter term skip (line ++ [c]) = occurrencesAfter term skip line := by
  have hstands : ∀ t : Text, term <+: t ++ [c] → term <+: t := by
    intro t h
    rcases List.prefix_concat_iff.mp h with he | hprefix
    · exact absurd (he ▸ List.mem_append_right t List.mem_cons_self) hc
    · exact hprefix
  induction line generalizing skip with
  | nil =>
    cases skip with
    | succ skip => simp [occurrencesAfter]
    | zero =>
      have hnone : ¬ term <+: [c] := fun h => hterm (List.prefix_nil.mp (hstands [] h))
      simp [occurrencesAfter_of_not_stands hnone, occurrencesAfter]
  | cons d line ih =>
    cases skip with
    | succ skip => exact ih skip
    | zero =>
      by_cases h : term <+: d :: line
      · have hlong : term <+: d :: (line ++ [c]) := h.trans (List.prefix_append (d :: line) [c])
        rw [List.cons_append, occurrencesAfter_of_stands hlong, occurrencesAfter_of_stands h, ih]
      · have hlong : ¬ term <+: d :: (line ++ [c]) := fun hl => h (hstands (d :: line) hl)
        rw [List.cons_append, occurrencesAfter_of_not_stands hlong,
          occurrencesAfter_of_not_stands h, ih]

/-- Taking off characters that the term does not have leaves all of its occurrences. -/
theorem occurrences_dropEndWhile {p : Char → Bool} (hterm : term ≠ [])
    (hp : ∀ c ∈ term, p c = false) (line : Text) :
    occurrences term (Text.dropEndWhile p line) = occurrences term line := by
  induction line using List.reverseRecOn with
  | nil => rfl
  | append_singleton line c ih =>
    by_cases hc : p c = true
    · have hfree : c ∉ term := fun hm => by rw [hp c hm] at hc; contradiction
      rw [Text.dropEndWhile_concat hc, ih]
      exact (occurrencesAfter_concat hterm hfree 0 line).symm
    · rw [Text.dropEndWhile_eq_self (by simpa using hc)]

/-- Passing over characters one by one counts what the scan takes. -/
theorem scanned_of_occurrencesAfter (hterm : term ≠ []) (skip start : Nat) {rest : Text}
    (hrest : line.drop start = rest) :
    ∃ places, Scanned term line (start + skip) places ∧
      places.length = occurrencesAfter term skip rest := by
  induction rest generalizing skip start with
  | nil =>
    refine ⟨[], .done ?_, by simp [occurrencesAfter]⟩
    intro i hi hprefix
    have hnil : line.drop i = [] := by
      rw [List.drop_eq_nil_iff] at hrest ⊢
      omega
    rw [hnil] at hprefix
    exact hterm (List.prefix_nil.mp hprefix)
  | cons c rest ih =>
    have hnext : line.drop (start + 1) = rest := by
      rw [← List.tail_drop, hrest, List.tail_cons]
    cases skip with
    | succ skip =>
      obtain ⟨places, hplaces, hlength⟩ := ih skip (start + 1) hnext
      refine ⟨places, ?_, hlength⟩
      rwa [Nat.add_right_comm] at hplaces
    | zero =>
      by_cases hprefix : term <+: c :: rest
      · obtain ⟨places, hplaces, hlength⟩ := ih (term.length - 1) (start + 1) hnext
        have hpos := List.length_pos_iff.mpr hterm
        have hbehind : start + 1 + (term.length - 1) = start + term.length := by omega
        refine ⟨start :: places, .found (Nat.le_refl start) (hrest ▸ hprefix) ?_ ?_, ?_⟩
        · intro j hj hlt
          omega
        · exact hbehind ▸ hplaces
        · rw [occurrencesAfter_of_stands hprefix, List.length_cons, hlength]
      · obtain ⟨places, hplaces, hlength⟩ := ih 0 (start + 1) hnext
        refine ⟨places, hplaces.back (hrest ▸ hprefix), ?_⟩
        rw [occurrencesAfter_of_not_stands hprefix, hlength]

/-- The count of a term in a line is what the scan of the whole line takes. -/
theorem scanned_of_occurrences (hterm : term ≠ []) (line : Text) :
    ∃ places, Scanned term line 0 places ∧ places.length = occurrences term line :=
  scanned_of_occurrencesAfter hterm 0 0 List.drop_zero

theorem isGreatest_occurrences (hterm : term ≠ []) (line : Text) :
    IsGreatest {n | ∃ places, Apart term line places ∧ places.card = n}
      (occurrences term line) := by
  obtain ⟨places, hplaces, hlength⟩ := scanned_of_occurrences hterm line
  obtain ⟨chosen, hchosen, hcard, _⟩ := hplaces.exists_apart hterm
  refine ⟨⟨chosen, hchosen, hcard.trans hlength⟩, ?_⟩
  rintro n ⟨others, hothers, rfl⟩
  rw [← hlength]
  exact hplaces.card_le hothers (fun i _ => Nat.zero_le i)

theorem occurrences_pos_iff (hterm : term ≠ []) (line : Text) :
    0 < occurrences term line ↔ term <:+: line := by
  obtain ⟨⟨places, hplaces, hcard⟩, hmost⟩ := isGreatest_occurrences hterm line
  constructor
  · intro hpos
    obtain ⟨i, hi⟩ := Finset.card_pos.mp (hcard ▸ hpos)
    exact (hplaces.stands i hi).isInfix.trans (List.drop_suffix i line).isInfix
  · rintro ⟨before, after, rfl⟩
    have hone : Apart term (before ++ term ++ after) {before.length} := by
      refine ⟨?_, ?_⟩
      · intro i hi
        obtain rfl := Finset.mem_singleton.mp hi
        rw [List.append_assoc, List.drop_left]
        exact List.prefix_append term after
      · intro i hi j hj hlt
        rw [Finset.mem_singleton] at hi hj
        omega
    exact hmost ⟨_, hone, Finset.card_singleton _⟩

end Marginalia.Search
