import Mathlib.Data.List.Count
import Mathlib.Data.List.Infix
import Marginalia.Proofs.Lines.Account
/-!
What a report says of the lines of a file, told without the run over them: what makes a line blank,
a comment or code, and which comments are sightings.
-/

namespace Marginalia

namespace CommentRule

/-- What it takes for a line to be of a class. -/
def Is (rule : CommentRule) (line : Text) : LineClass → Prop
  | .blank => Text.trim line = []
  | .comment => ∃ opening ∈ rule.openings, opening <+: Text.trim line
  | .code => Text.trim line ≠ [] ∧ ∀ opening ∈ rule.openings, ¬ opening <+: Text.trim line

instance (rule : CommentRule) (line : Text) : DecidablePred (rule.Is line)
  | .blank => inferInstanceAs (Decidable (Text.trim line = []))
  | .comment => inferInstanceAs (Decidable (∃ opening ∈ rule.openings, opening <+: Text.trim line))
  | .code => inferInstanceAs (Decidable (Text.trim line ≠ [] ∧
      ∀ opening ∈ rule.openings, ¬ opening <+: Text.trim line))

variable {rule : CommentRule}

theorem nil_not_mem_openings_ofFamily (family : Family) : [] ∉ (ofFamily family).openings := by
  cases family <;> decide

/-- Under the rule of a file type something has to be there for a line to open. -/
theorem nil_not_mem_openings (f : Option FileType) : [] ∉ (ofType f).openings := by
  cases f with
  | none => decide
  | some f => exact nil_not_mem_openings_ofFamily f.family

theorem ofToken_of_known {token : Text} {f : FileType} (hf : FileType.ofToken? token = some f) :
    ofToken token = ofFamily f.family := by
  rw [ofToken, hf]
  rfl

theorem opens_iff (hrule : [] ∉ rule.openings) (line : Text) :
    rule.opens line = true ↔ ∃ opening ∈ rule.openings, opening <+: Text.trim line := by
  simp only [opens, List.any_eq_true, Bool.and_eq_true, bne_iff_ne, List.isPrefixOf_iff_prefix]
  constructor
  · rintro ⟨opening, hmem, _, hopens⟩
    exact ⟨opening, hmem, hopens⟩
  · rintro ⟨opening, hmem, hopens⟩
    exact ⟨opening, hmem, fun he => hrule (he ▸ hmem), hopens⟩

theorem is_iff_classify_eq (hrule : [] ∉ rule.openings) {line : Text} {c : LineClass} :
    rule.Is line c ↔ rule.classify line = c := by
  have hopens := opens_iff hrule line
  by_cases hblank : Text.trim line = []
  · cases c with
    | blank => simp [Is, classify, hblank]
    | comment => simpa [Is, classify, hblank] using hrule
    | code => simp [Is, classify, hblank]
  · by_cases ho : rule.opens line = true
    · have hsome := hopens.mp ho
      cases c with
      | blank => simp [Is, classify, hblank, ho]
      | comment => simpa [Is, classify, hblank, ho] using hsome
      | code => simpa [Is, classify, hblank, ho] using hsome
    · have hnone : ∀ opening ∈ rule.openings, ¬ opening <+: Text.trim line :=
        fun opening hmem hopening => ho (hopens.mpr ⟨opening, hmem, hopening⟩)
      cases c with
      | blank => simp [Is, classify, hblank, ho]
      | comment => simpa [Is, classify, hblank, ho] using hnone
      | code => simpa [Is, classify, hblank, ho] using hnone

/-- Every line is of just one class. -/
theorem existsUnique_is (hrule : [] ∉ rule.openings) (line : Text) : ∃! c, rule.Is line c :=
  ⟨rule.classify line, (is_iff_classify_eq hrule).mpr rfl,
    fun _ hc => ((is_iff_classify_eq hrule).mp hc).symm⟩

/-! ### Counting -/

/-- A count that goes up by one for some of the lines is the number of those lines. -/
theorem count_countLines {count : Counts → Nat} {p : Text → Bool}
    (hadd : ∀ a b, count (a + b) = count a + count b) (hzero : count 0 = 0)
    (hline : ∀ line, count (rule.countLine line) = if p line then 1 else 0) (lines : List Text) :
    count (rule.countLines lines) = lines.countP p := by
  induction lines with
  | nil => exact hzero
  | cons line lines ih => rw [countLines_cons, hadd, ih, hline, List.countP_cons, Nat.add_comm]

theorem total_countLines (rule : CommentRule) (lines : List Text) :
    (rule.countLines lines).total = lines.length := by
  rw [count_countLines Counts.total_add rfl (p := fun _ => true) (fun _ => rfl), List.countP_true]

theorem blank_countLines (hrule : [] ∉ rule.openings) (lines : List Text) :
    (rule.countLines lines).blank = lines.countP (rule.Is · .blank) :=
  count_countLines Counts.blank_add rfl
    (fun line => by simp [countLine, is_iff_classify_eq hrule]) lines

theorem comment_countLines (hrule : [] ∉ rule.openings) (lines : List Text) :
    (rule.countLines lines).comment = lines.countP (rule.Is · .comment) :=
  count_countLines Counts.comment_add rfl
    (fun line => by simp [countLine, is_iff_classify_eq hrule]) lines

/-- The classes share out the lines, so no line is counted away twice. -/
theorem length_eq_countP_is (hrule : [] ∉ rule.openings) (lines : List Text) :
    lines.length = lines.countP (rule.Is · .blank) + lines.countP (rule.Is · .comment) +
      lines.countP (rule.Is · .code) := by
  induction lines with
  | nil => rfl
  | cons line lines ih =>
    simp only [List.countP_cons, List.length_cons, is_iff_classify_eq hrule, decide_eq_true_eq]
      at ih ⊢
    cases hc : rule.classify line with
    | blank => simp; omega
    | comment => simp; omega
    | code => simp; omega

theorem code_countLines (hrule : [] ∉ rule.openings) (lines : List Text) :
    (rule.countLines lines).code = lines.countP (rule.Is · .code) := by
  have hlength := length_eq_countP_is hrule lines
  rw [Counts.code, total_countLines, blank_countLines hrule, comment_countLines hrule]
  omega

/-! ### Markers -/

theorem mem_markersIn_iff (hrule : [] ∉ rule.openings) {m : Marker} {line : Text} :
    m ∈ rule.markersIn line ↔ rule.Is line .comment ∧ m.word <:+: line := by
  have hall : m ∈ Marker.all := by cases m <;> decide
  rw [is_iff_classify_eq hrule, markersIn]
  split
  · rename_i hc
    simp [hc, hall, Marker.isIn, Text.includes_iff]
  · rename_i hc
    simp [hc]

/-- The markers of a line are listed once each, in their own order. -/
theorem markersIn_sublist (rule : CommentRule) (line : Text) :
    (rule.markersIn line).Sublist Marker.all := by
  rw [markersIn]
  split
  · exact List.filter_sublist
  · exact List.nil_sublist _

theorem count_markersIn_le (rule : CommentRule) (m : Marker) (line : Text) :
    (rule.markersIn line).count m ≤ (rule.countLine line).comment := by
  have hone : Marker.all.count m = 1 := by cases m <;> rfl
  by_cases hc : rule.classify line = .comment
  · have hle := (rule.markersIn_sublist line).count_le m
    simp only [countLine, hc, if_true]
    omega
  · simp [markersIn, hc]

end CommentRule

/-- How many sightings of a marker are counted. -/
def Counts.marked (c : Counts) : Marker → Nat
  | .todo => c.todo
  | .fixme => c.fixme

theorem Counts.marked_add (a b : Counts) (m : Marker) :
    (a + b).marked m = a.marked m + b.marked m := by
  cases m <;> rfl

namespace CommentRule

variable {rule : CommentRule}

theorem marked_countLine (rule : CommentRule) (line : Text) (m : Marker) :
    (rule.countLine line).marked m = (rule.markersIn line).count m := by
  cases m <;> rfl

theorem countLine_of_comment (hrule : [] ∉ rule.openings) {line : Text}
    (h : rule.Is line .comment) :
    (rule.countLine line).blank = 0 ∧ (rule.countLine line).comment = 1 := by
  have hclass := (is_iff_classify_eq hrule).mp h
  constructor
  · simp [countLine, hclass]
  · simp [countLine, hclass]

/-- On a comment each marker counts once, however often it is there. -/
theorem marked_countLine_of_comment (hrule : [] ∉ rule.openings) {line : Text}
    (h : rule.Is line .comment) (m : Marker) :
    (rule.countLine line).marked m = if m.word <:+: line then 1 else 0 := by
  have hone := (countLine_of_comment hrule h).2
  have hle := rule.count_markersIn_le m line
  rw [marked_countLine]
  split
  · rename_i hin
    have hpos := List.count_pos_iff.mpr ((mem_markersIn_iff hrule).mpr ⟨h, hin⟩)
    omega
  · rename_i hout
    exact List.count_eq_zero.mpr (fun hm => hout ((mem_markersIn_iff hrule).mp hm).2)

theorem marked_countLines (rule : CommentRule) (first : Nat) (lines : List Text) (m : Marker) :
    (rule.countLines lines).marked m =
      (rule.account.told first lines).countP (·.marker = m) := by
  induction lines generalizing first with
  | nil => cases m <;> rfl
  | cons line lines ih =>
    have hline : (rule.account.tell line first).countP (·.marker = m) =
        (rule.markersIn line).count m := by
      rw [List.count_eq_countP]
      simp only [account, sightingsAt, List.countP_map]
      apply List.countP_congr
      intro k _
      simp
    rw [countLines_cons, Counts.marked_add, ih (first + 1), marked_countLine, Account.told_cons,
      List.countP_append, hline]

/-- Sightings are counted within the comments only. -/
theorem marked_countLines_le (rule : CommentRule) (lines : List Text) (m : Marker) :
    (rule.countLines lines).marked m ≤ (rule.countLines lines).comment := by
  induction lines with
  | nil => cases m <;> exact Nat.le_refl 0
  | cons line lines ih =>
    rw [countLines_cons, Counts.marked_add, Counts.comment_add, marked_countLine]
    exact Nat.add_le_add (rule.count_markersIn_le m line) ih

theorem mem_told_iff (hrule : [] ∉ rule.openings) {lines : List Text} {x : Sighting} :
    x ∈ rule.account.told 1 lines ↔
      0 < x.line ∧ lines[x.line - 1]? = some x.text ∧ rule.Is x.text .comment ∧
        x.marker.word <:+: x.text := by
  have hline : ∀ line, x ∈ rule.account.tell line x.line ↔
      x.text = line ∧ rule.Is line .comment ∧ x.marker.word <:+: line := by
    intro line
    obtain ⟨marker, number, text⟩ := x
    rw [← mem_markersIn_iff hrule]
    simp [account, sightingsAt, eq_comm, and_comm]
  rw [Account.mem_told_iff]
  apply and_congr_right
  intro _
  constructor
  · rintro ⟨line, hget, hx⟩
    obtain ⟨rfl, hcomment⟩ := (hline line).mp hx
    exact ⟨hget, hcomment⟩
  · rintro ⟨hget, hcomment⟩
    exact ⟨x.text, hget, (hline x.text).mpr ⟨rfl, hcomment⟩⟩

end CommentRule

/-- The order of a report: by line, and on one line what is to be done before what is to be
mended. -/
def Sighting.Before (x y : Sighting) : Prop :=
  x.line < y.line ∨ x.line = y.line ∧ x.marker = .todo ∧ y.marker = .fixme

theorem CommentRule.pairwise_sightings (rule : CommentRule) (lines : List Text) :
    (rule.account.told 1 lines).Pairwise Sighting.Before := by
  apply Account.pairwise_told
  · intro line n
    have hall : Marker.all.Pairwise (fun m k => m = .todo ∧ k = .fixme) := by decide
    apply List.pairwise_map.mpr
    exact (hall.sublist (rule.markersIn_sublist line)).imp (fun h => Or.inr ⟨rfl, h⟩)
  · intro x y hlt
    exact Or.inl hlt

/-- A report counts the lines of each class and lists the words that mark open work in comments. Its
counts of comments, of blank lines and of code add up to the number of lines. -/
theorem Report.ofToken_classifies (token : Text) (lines : List Text) :
    let rule := CommentRule.ofToken token
    let r := Report.ofToken token lines
    r.fileType = FileType.ofToken? token ∧
    r.counts.total = lines.length ∧
    (∀ line, ∃! c, rule.Is line c) ∧
    r.counts.blank = lines.countP (rule.Is · .blank) ∧
    r.counts.comment = lines.countP (rule.Is · .comment) ∧
    r.counts.code = lines.countP (rule.Is · .code) ∧
    r.counts.blank + r.counts.comment ≤ r.counts.total ∧
    r.counts.blank + r.counts.comment + r.counts.code = r.counts.total ∧
    (r.counts.blank + r.counts.comment = r.counts.total ↔ ∀ line ∈ lines, ¬ rule.Is line .code) ∧
    r.sightings.Pairwise Sighting.Before ∧
    (∀ x, x ∈ r.sightings ↔
      0 < x.line ∧ lines[x.line - 1]? = some x.text ∧ rule.Is x.text .comment ∧
        x.marker.word <:+: x.text) ∧
    r.counts.todo = r.sightings.countP (·.marker = .todo) ∧
    r.counts.fixme = r.sightings.countP (·.marker = .fixme) ∧
    r.counts.todo ≤ r.counts.comment ∧ r.counts.fixme ≤ r.counts.comment := by
  intro rule r
  have hrule : [] ∉ rule.openings := CommentRule.nil_not_mem_openings _
  have htotal : r.counts.total = lines.length := rule.total_countLines lines
  have hblank : r.counts.blank = _ := CommentRule.blank_countLines hrule lines
  have hcomment : r.counts.comment = _ := CommentRule.comment_countLines hrule lines
  have hcode : r.counts.code = _ := CommentRule.code_countLines hrule lines
  have hsum := CommentRule.length_eq_countP_is hrule lines
  have hnocode : lines.countP (rule.Is · .code) = 0 ↔ ∀ line ∈ lines, ¬ rule.Is line .code := by
    simp [List.countP_eq_zero]
  refine ⟨rfl, htotal, CommentRule.existsUnique_is hrule, hblank, hcomment, hcode, ?_, ?_, ?_,
    rule.pairwise_sightings lines, fun x => CommentRule.mem_told_iff hrule,
    rule.marked_countLines 1 lines .todo, rule.marked_countLines 1 lines .fixme,
    rule.marked_countLines_le lines .todo, rule.marked_countLines_le lines .fixme⟩
  · omega
  · omega
  · rw [← hnocode]
    omega

end Marginalia
