import Marginalia.Proofs.Report.Classes
import Marginalia.Proofs.Text.Words
/-!
Reports see trimmed lines. What a line counts as, and which markers it holds, can be told from its
trimmed text.
-/

namespace Marginalia

/-- Texts that are the same but for the blanks around them. -/
def Text.Alike (s t : Text) : Prop := trim s = trim t

instance : DecidableRel Text.Alike :=
  fun s t => inferInstanceAs (Decidable (Text.trim s = Text.trim t))

theorem Marker.isWord_word (m : Marker) : Text.IsWord m.word := by
  cases m with
  | todo => decide
  | fixme => decide

namespace CommentRule

theorem isWord_opening {family : Family} {opening : Text}
    (h : opening ∈ (ofFamily family).openings) : Text.IsWord opening := by
  have hall : ∀ o ∈ (ofFamily family).openings, Text.IsWord o := by
    cases family <;> decide
  exact hall opening h

variable {rule : CommentRule}

theorem markersIn_congr {s t : Text} (h : Text.Alike s t) :
    rule.markersIn s = rule.markersIn t := by
  have hin : ∀ m : Marker, m.isIn s = m.isIn t := by
    intro m
    rw [Bool.eq_iff_iff, Marker.isIn, Marker.isIn, Text.includes_iff, Text.includes_iff,
      ← m.isWord_word.infix_trim_iff s, ← m.isWord_word.infix_trim_iff t, h]
  simp only [markersIn, rule.classify_congr h, hin]

theorem countLine_congr {s t : Text} (h : Text.Alike s t) :
    rule.countLine s = rule.countLine t := by
  simp only [countLine, rule.classify_congr h, markersIn_congr h]

theorem countLines_congr {lines others : List Text} (h : List.Forall₂ Text.Alike lines others) :
    rule.countLines lines = rule.countLines others := by
  induction h with
  | nil => rfl
  | cons hline _ ih => rw [countLines_cons, countLines_cons, countLine_congr hline, ih]

/-- Taking blanks off the ends of lines changes no count. -/
theorem countLines_map {f : Text → Text} (hf : ∀ line, Text.Alike (f line) line)
    (lines : List Text) : rule.countLines (lines.map f) = rule.countLines lines := by
  apply countLines_congr
  rw [List.forall₂_map_left_iff, List.forall₂_same]
  exact fun line _ => hf line

/-- Lines that are alike have the same sightings, as far as a view of them can tell that has no use
for the blanks around the line. -/
theorem map_told_congr {γ : Type} {view : Sighting → γ}
    (hview : ∀ m n s t, Text.Alike s t → view ⟨m, n, s⟩ = view ⟨m, n, t⟩)
    {lines others : List Text} (h : List.Forall₂ Text.Alike lines others) (first : Nat) :
    (rule.account.told first lines).map view = (rule.account.told first others).map view := by
  apply Account.map_told_congr
  refine h.imp ?_
  intro s t hst n
  simp only [account, sightingsAt, List.map_map, markersIn_congr hst]
  apply List.map_congr_left
  intro m _
  exact hview m n s t hst

end CommentRule

end Marginalia
