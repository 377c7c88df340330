import Marginalia.Proofs.Comment.Frames
import Marginalia.Proofs.Insertion.Shifting
/-!
Notes in the reports on the files that they are added to. A note on one line is one more comment,
and one more thing to do or to mend if it says so. A block with lines of its own is two more
comments, and its inner lines are whatever they would be outside of it.
-/

namespace Marginalia

theorem Text.trim_bare (line : Text) : trim (bare line) = trim line := by
  apply trim_dropEndWhile
  intro c hc
  obtain rfl := beq_iff_eq.mp hc
  rfl

theorem Report.ofToken_of_known {token : Text} {f : FileType}
    (hf : FileType.ofToken? token = some f) (lines : List Text) :
    Report.ofToken token lines = ⟨some f, (CommentRule.ofFamily f.family).countLines lines,
      (CommentRule.ofFamily f.family).account.told 1 lines⟩ := by
  rw [Report.ofToken, hf]
  rfl

namespace Insertion

theorem pieces_append_break (first second : Text) :
    pieces (first ++ '\n' :: second) = pieces first ++ pieces second := by
  rw [pieces, List.splitOn_append_cons_self, List.map_append]
  rfl

theorem countLines_pieces (rule : CommentRule) (comment : Text) :
    rule.countLines (pieces comment) = rule.countLines (comment.splitOn '\n') :=
  CommentRule.countLines_map Text.trim_bare _

section Family
variable {family : Family}

/-- A note on one line makes one comment, with the markers that it is to have or has. -/
theorem counts_pieces_inline {kind : CommentKind} {note : Text}
    (hline : kind = .multiLine → family = .cLike) (hnote : '\n' ∉ note) :
    let added := (CommentRule.ofFamily family).countLines
      (pieces (Comment.ofFamily family kind note))
    added.total = 1 ∧ added.blank = 0 ∧ added.comment = 1 ∧
      ∀ m : Marker, added.marked m = if kind = m.kind ∨ m.word <:+: note then 1 else 0 := by
  intro added
  have hrule := CommentRule.nil_not_mem_openings_ofFamily family
  have hcomment := Comment.is_comment_ofFamily hline note
  have hadded : added =
      (CommentRule.ofFamily family).countLine (Comment.ofFamily family kind note) := by
    have hfree := mt (Comment.feed_mem_ofFamily_iff hline note).mp hnote
    show CommentRule.countLines _ (pieces _) = _
    rw [countLines_pieces, List.splitOn_eq_singleton hfree, CommentRule.countLines_singleton]
  obtain ⟨hblank, hone⟩ := CommentRule.countLine_of_comment hrule hcomment
  rw [hadded]
  refine ⟨rfl, hblank, hone, ?_⟩
  intro m
  rw [CommentRule.marked_countLine_of_comment hrule hcomment]
  exact if_congr (Comment.word_infix_ofFamily_iff hline m note) rfl rfl

theorem countLines_pieces_opening {opening : Text}
    (h : opening ∈ (CommentRule.ofFamily family).openings) :
    (CommentRule.ofFamily family).countLines (pieces opening) = ⟨1, 0, 1, 0, 0⟩ := by
  have hall : ∀ o ∈ (CommentRule.ofFamily family).openings,
      (CommentRule.ofFamily family).countLines (pieces o) = ⟨1, 0, 1, 0, 0⟩ := by
    cases family <;> decide
  exact hall opening h

/-- A block puts two comments around the lines of its note. -/
theorem countLines_pieces_block (h : family ≠ .cLike) (note : Text) :
    (CommentRule.ofFamily family).countLines (pieces (Comment.ofFamily family .multiLine note)) =
      ⟨2, 0, 2, 0, 0⟩ + (CommentRule.ofFamily family).countLines (note.splitOn '\n') := by
  obtain ⟨opener, hopener, closer, hcloser, hframe⟩ := Family.blockFrame_eq h
  have hblock : Comment.ofFamily family .multiLine note =
      opener ++ '\n' :: (note ++ '\n' :: closer) := by
    simp [Comment.ofFamily, hframe, Comment.label_multiLine]
  rw [hblock, pieces_append_break, pieces_append_break, CommentRule.countLines_append,
    CommentRule.countLines_append, countLines_pieces_opening hopener,
    countLines_pieces_opening hcloser, countLines_pieces, Counts.add_comm _ ⟨1, 0, 1, 0, 0⟩,
    ← Counts.add_assoc]
  rfl

end Family

/-- A report tells what a note is. On one line it is one comment more, counted among what is to be
done if it is of that kind or speaks of it, and likewise for what is to be mended; nothing else is
counted anew. A block of the families that close one on a line of its own adds two comments to what
the lines of the note count as, however many they are. -/
theorem annotate_reported {token : Text} {f : FileType} (hf : FileType.ofToken? token = some f)
    {lines : List Text} {n : Nat} (hfirst : 0 < n) (hlast : n ≤ lines.length) (kind : CommentKind)
    (note : Text) :
    ∃ result, annotate lines ⟨token, kind, note, n⟩ = .ok result ∧
      let before := Report.ofToken token lines
      let after := Report.ofToken token result
      ('\n' ∉ note ∧ (kind = .multiLine → f.family = .cLike) →
        after.counts.total = before.counts.total + 1 ∧
        after.counts.comment = before.counts.comment + 1 ∧
        after.counts.blank = before.counts.blank ∧
        after.counts.code = before.counts.code ∧
        after.counts.todo = before.counts.todo +
          (if kind = .todo ∨ "TODO".toList <:+: note then 1 else 0) ∧
        after.counts.fixme = before.counts.fixme +
          (if kind = .fixme ∨ "FIXME".toList <:+: note then 1 else 0) ∧
        ∃ new, (∀ x ∈ new, x.line = n) ∧
          after.sightings = before.sightings.filter (·.line < n) ++ new ++
            (before.sightings.filter (n ≤ ·.line)).map (Sighting.moved 1)) ∧
      (kind = .multiLine ∧ f.family ≠ .cLike →
        let inner := Report.ofToken token (note.splitOn '\n')
        after.counts.total = before.counts.total + ((note.splitOn '\n').length + 2) ∧
        after.counts.comment = before.counts.comment + (2 + inner.counts.comment) ∧
        after.counts.blank = before.counts.blank + inner.counts.blank ∧
        after.counts.todo = before.counts.todo + inner.counts.todo ∧
        after.counts.fixme = before.counts.fixme + inner.counts.fixme) := by
  let rule := CommentRule.ofFamily f.family
  let added := pieces (Comment.ofFamily f.family kind note)
  have hsplice := rule.countLines_splice lines (n - 1) added
  refine ⟨splice lines (n - 1) added, annotate_eq_ok_iff.mpr ⟨_,
    SourceText.format_of_ofToken? hf kind note, insert_eq_ok_iff.mpr ⟨hfirst, hlast, rfl⟩⟩, ?_⟩
  rw [Report.ofToken_of_known hf, Report.ofToken_of_known hf, Report.ofToken_of_known hf]
  constructor
  · rintro ⟨hnote, hline⟩
    obtain ⟨htotal, hblank, hcomment, hmarked⟩ := counts_pieces_inline hline hnote
    have hrule := CommentRule.nil_not_mem_openings_ofFamily f.family
    have hcode := CommentRule.code_splice hrule lines (n - 1) added
    have hnone : (rule.countLines added).code = 0 := by
      rw [Counts.code, htotal, hblank, hcomment]
    have hpieces : added.length = 1 := (rule.total_countLines _).symm.trans htotal
    refine ⟨?_, ?_, ?_, ?_, ?_, ?_, rule.account.told n added, ?_, ?_⟩
    · rw [hsplice, Counts.total_add, htotal]
    · rw [hsplice, Counts.comment_add, hcomment]
    · rw [hsplice, Counts.blank_add, hblank, Nat.add_zero]
    · rw [hcode, hnone, Nat.add_zero]
    · rw [hsplice, Counts.todo_add]
      exact congrArg _ (hmarked .todo)
    · rw [hsplice, Counts.fixme_add]
      exact congrArg _ (hmarked .fixme)
    · intro x hx
      have hfrom : n ≤ x.line := Account.first_le_of_mem_told hx
      have hto : x.line < n + added.length := Account.number_lt_of_mem_told hx
      omega
    · have htold := Account.told_splice (a := rule.account) hfirst hlast added
      have hmoved : 1 + (n - 1) = n := by omega
      rwa [← Account.told_add, hmoved, hpieces] at htold
  · rintro ⟨rfl, hfamily⟩
    have hblock : rule.countLines added = _ := countLines_pieces_block hfamily note
    refine ⟨?_, ?_, ?_, ?_, ?_⟩
    · rw [hsplice, hblock, Counts.total_add, Counts.total_add, CommentRule.total_countLines,
        CommentRule.total_countLines, Nat.add_comm 2]
    · rw [hsplice, hblock, Counts.comment_add, Counts.comment_add]
    · rw [hsplice, hblock, Counts.blank_add, Counts.blank_add, Nat.zero_add]
    · rw [hsplice, hblock, Counts.todo_add, Counts.todo_add, Nat.zero_add]
    · rw [hsplice, hblock, Counts.fixme_add, Counts.fixme_add, Nat.zero_add]

/-- A note that is to be done speaks of what is to be mended; the lines of a block are a comment and
two blank ones. -/
theorem annotate_reported_stylesheet :
    let token := "css".toList
    let lines := ["@import a;".toList, "@import b;".toList]
    let spoken := "then FIXME".toList
    let block := "/* TODO\n\n".toList
    FileType.ofToken? token = some .css ∧ 0 < 2 ∧ 2 ≤ lines.length ∧
      ('\n' ∉ spoken ∧ (CommentKind.todo = .multiLine → FileType.css.family = .cLike)) ∧
      (CommentKind.multiLine = .multiLine ∧ FileType.css.family ≠ .cLike) ∧
      (∃ result, annotate lines ⟨token, .todo, spoken, 2⟩ = .ok result ∧
        let counts := (Report.ofToken token result).counts
        counts.total = 3 ∧ counts.comment = 1 ∧ counts.blank = 0 ∧ counts.todo = 1 ∧
          counts.fixme = 1) ∧
      ∃ result, annotate lines ⟨token, .multiLine, block, 2⟩ = .ok result ∧
        let counts := (Report.ofToken token result).counts
        counts.total = 7 ∧ counts.comment = 3 ∧ counts.blank = 2 ∧ counts.todo = 1 ∧
          counts.fixme = 0 := by
  intro token lines spoken block
  have hf : FileType.ofToken? token = some .css := by decide
  have hlast : 2 ≤ lines.length := by decide
  have hinline : '\n' ∉ spoken ∧
      (CommentKind.todo = .multiLine → FileType.css.family = .cLike) := by
    decide
  have hblock : CommentKind.multiLine = .multiLine ∧ FileType.css.family ≠ .cLike := by decide
  have hmend : "FIXME".toList <:+: spoken := ⟨"then ".toList, [], rfl⟩
  have hlines : (Report.ofToken token lines).counts = ⟨2, 0, 0, 0, 0⟩ := by decide
  have hinner : (Report.ofToken token (block.splitOn '\n')).counts = ⟨3, 2, 1, 1, 0⟩ := by decide
  obtain ⟨first, hfirst, hnoted, _⟩ := annotate_reported hf (by decide) hlast .todo spoken
  obtain ⟨htotal, hcomment, hblank, _, htodo, hfixme, _⟩ := hnoted hinline
  rw [hlines] at htotal hcomment hblank htodo hfixme
  rw [if_pos (Or.inl rfl)] at htodo
  rw [if_pos (Or.inr hmend)] at hfixme
  obtain ⟨second, hsecond, _, hboxed⟩ := annotate_reported hf (by decide) hlast .multiLine block
  obtain ⟨htotals, hcomments, hblanks, htodos, hfixmes⟩ := hboxed hblock
  rw [hlines] at htotals
  rw [hlines, hinner] at hcomments hblanks htodos hfixmes
  exact ⟨hf, by decide, hlast, hinline, hblock,
    ⟨first, hfirst, htotal, hcomment, hblank, htodo, hfixme⟩,
    second, hsecond, htotals, hcomments, hblanks, htodos, hfixmes⟩

end Insertion

end Marginalia
