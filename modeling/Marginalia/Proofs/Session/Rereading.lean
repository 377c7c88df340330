import Marginalia.Proofs.SourceText.Splicing
import Marginalia.Session
/-!
Writing a source out and reading it in again between two steps. A canonical source stays canonical
as long as no other text is loaded, so nobody can tell whether it was read again or not.
-/

namespace Marginalia.Session

/-- What the steps of a run show, leaving out those that go by way of the written text. -/
def shown (s : SourceText) (steps : List Step) : List Reply :=
  ((steps.zip (run s steps).1).filter (·.1 ≠ .reread)).map (·.2)

/-- The same steps, none of which goes by way of the written text. -/
def withoutRereads (steps : List Step) : List Step := steps.filter (· ≠ .reread)

theorem run_cons (s : SourceText) (next : Step) (steps : List Step) :
    run s (next :: steps) =
      ((step s next).1 :: (run (step s next).2 steps).1, (run (step s next).2 steps).2) :=
  rfl

theorem shown_reread (s : SourceText) (steps : List Step) :
    shown s (.reread :: steps) = shown (step s .reread).2 steps := by
  simp [shown, run_cons]

theorem shown_cons {next : Step} (h : next ≠ .reread) (s : SourceText) (steps : List Step) :
    shown s (next :: steps) = (step s next).1 :: shown (step s next).2 steps := by
  simp [shown, run_cons, h]

theorem step_reread {s : SourceText} (hs : s.Canonical) : (step s .reread).2 = s :=
  hs.parse_render

theorem edit_canonical {s : SourceText} (hs : s.Canonical) {result : Except Failure (List Text)}
    (h : ∀ lines, result = .ok lines → (s.withLines lines).Canonical) :
    (edit s result).2.Canonical := by
  cases result with
  | error e => exact hs
  | ok lines => exact h lines rfl

/-- Only a step that brings in another text can leave a source that reads differently. -/
theorem step_canonical {s : SourceText} (hs : s.Canonical) {next : Step}
    (hload : ∀ other, next ≠ .load other) : (step s next).2.Canonical := by
  cases next with
  | report token => exact hs
  | search term =>
    simp only [step]
    split
    · exact hs
    · exact hs
  | insert line comment => exact edit_canonical hs (fun _ hi => hs.insert hi)
  | annotate request =>
    apply edit_canonical hs
    intro lines ha
    obtain ⟨comment, _, hi⟩ := Insertion.annotate_eq_ok_iff.mp ha
    exact hs.insert hi
  | render => exact hs
  | reread => rwa [step_reread hs]
  | load content => exact absurd rfl (hload content)

theorem run_canonical {s : SourceText} (hs : s.Canonical) {steps : List Step}
    (hload : ∀ other, .load other ∉ steps) : (run s steps).2.Canonical := by
  induction steps generalizing s with
  | nil => exact hs
  | cons next steps ih =>
    rw [run_cons]
    apply ih
    · exact step_canonical hs (fun other he => hload other (by simp [he]))
    · exact fun other hm => hload other (List.mem_cons_of_mem next hm)

/-- From a canonical source a reread does nothing: each step meets the same source in both runs. -/
theorem run_withoutRereads {s : SourceText} (hs : s.Canonical) {steps : List Step}
    (hload : ∀ other, .load other ∉ steps) :
    shown s steps = (run s (withoutRereads steps)).1 ∧
      (run s steps).2 = (run s (withoutRereads steps)).2 := by
  induction steps generalizing s with
  | nil => exact ⟨rfl, rfl⟩
  | cons next steps ih =>
    have hne : ∀ other, next ≠ .load other := fun other he => hload other (by simp [he])
    obtain ⟨hshown, hend⟩ := ih (step_canonical hs hne)
      (fun other hm => hload other (List.mem_cons_of_mem next hm))
    by_cases hr : next = .reread
    · subst hr
      have hw : withoutRereads (.reread :: steps) = withoutRereads steps := by
        simp [withoutRereads]
      rw [step_reread hs] at hshown hend
      rw [shown_reread, run_cons, step_reread hs, hw]
      exact ⟨hshown, hend⟩
    · have hw : withoutRereads (next :: steps) = next :: withoutRereads steps := by
        simp [withoutRereads, hr]
      rw [hw, shown_cons hr, run_cons, run_cons, hshown, hend]
      exact ⟨rfl, rfl⟩

/-- A run that starts from a text which reads as it is written shows the same with and without
rereads, ends with the same source, and never leaves the sources that read as they are written. -/
theorem rereads_invisible {content : Text} {steps : List Step}
    (hstable : SourceText.parse (SourceText.parse content).render = .parse content)
    (hload : ∀ other, .load other ∉ steps) :
    shown (.parse content) steps = (run (.parse content) (withoutRereads steps)).1 ∧
      (run (.parse content) steps).2 = (run (.parse content) (withoutRereads steps)).2 ∧
      ∀ first, first <+: steps →
        SourceText.parse (run (.parse content) first).2.render =
          (run (.parse content) first).2 := by
  have hs := SourceText.canonical_of_parse_render hstable
  obtain ⟨hshown, hend⟩ := run_withoutRereads hs hload
  refine ⟨hshown, hend, ?_⟩
  intro first hfirst
  have hcanonical := run_canonical hs (fun other hm => hload other (hfirst.mem hm))
  exact hcanonical.parse_render

/-- A comment with returns, a blank piece and a step that fails, with rereads in between. -/
theorem rereads_invisible_between_edits :
    let content := "a\r\nb".toList
    let steps := [.reread, .insert 1 "x\r\r\n\ny".toList, .reread,
      .annotate ⟨"py".toList, .multiLine, "z".toList, 9⟩, .reread,
      .annotate ⟨"py".toList, .multiLine, "z\r".toList, 5⟩]
    SourceText.parse (SourceText.parse content).render = .parse content ∧
      shown (.parse content) steps = (run (.parse content) (withoutRereads steps)).1 ∧
      (run (.parse content) steps).2 =
        ⟨["x", "", "y", "a", "\"\"\"", "z", "\"\"\"", "b"].map String.toList, .crlf, false⟩ := by
  intro content steps
  have hstable : SourceText.parse (SourceText.parse content).render = .parse content := by decide
  have hload : ∀ other, .load other ∉ steps := by simp [steps]
  obtain ⟨hshown, hend, _⟩ := rereads_invisible hstable hload
  exact ⟨hstable, hshown, hend.trans (by decide)⟩

end Marginalia.Session
