import Marginalia.Proofs.Insertion.Noted
/-!
Notes that are to stand on one line but are longer than that. Only the first line of such a note is
written as a comment. The others spill into the file as they are, and count there as whatever they
look like.
-/

namespace Marginalia.Insertion

/-- What is written before a comment goes to its first line, and the others stay as they are. -/
theorem exists_pieces_append {start : Text} (h : '\n' ∉ start) (comment : Text) :
    ∃ first, pieces (start ++ comment) = Text.bare (start ++ first) :: (pieces comment).tail := by
  obtain ⟨first, others, hsplit⟩ := List.exists_cons_of_ne_nil (List.splitOn_ne_nil '\n' comment)
  refine ⟨first, ?_⟩
  rw [pieces, pieces, Cut.splitOn_append_of_not_mem h, hsplit]
  rfl

/-- The lines of a note after its first one, with what closes the comment behind the last of
them. -/
def spilled (family : Family) (note : Text) : List Text :=
  (pieces (note ++ family.lineFrame.after)).tail

theorem length_spilled (family : Family) (note : Text) :
    (spilled family note).length = note.count '\n' := by
  have hafter : family.lineFrame.after.count '\n' = 0 :=
    List.count_eq_zero.mpr family.inline_lineFrame.unbroken.2
  rw [spilled, List.length_tail, length_pieces, List.count_append, hafter]
  rfl

theorem spilled_eq_nil_iff (family : Family) (note : Text) :
    spilled family note = [] ↔ '\n' ∉ note := by
  rw [← List.length_eq_zero_iff, length_spilled, List.count_eq_zero]

/-- Of a note that is to stand on one line, only the first line is written as a comment. -/
theorem exists_pieces_ofFamily (family : Family) {kind : CommentKind} (hkind : kind ≠ .multiLine)
    (note : Text) :
    ∃ line, pieces (Comment.ofFamily family kind note) = line :: spilled family note ∧
      (CommentRule.ofFamily family).Is line .comment := by
  have hinline := family.inline_lineFrame
  have hstart : '\n' ∉ family.lineFrame.before ++ Comment.label kind := by
    simp [hinline.unbroken.1, Comment.feed_not_mem_label]
  obtain ⟨opening, hmem, hopens⟩ := hinline.opens
  obtain ⟨first, hpieces⟩ := exists_pieces_append hstart (note ++ family.lineFrame.after)
  refine ⟨Text.bare (family.lineFrame.before ++ Comment.label kind ++ first), ?_, opening, hmem, ?_⟩
  · rw [Comment.ofFamily, family.frame_eq_lineFrame hkind, List.append_assoc]
    exact hpieces
  · rw [Text.trim_bare, List.append_assoc]
    exact (CommentRule.isWord_opening hmem).prefix_trim (List.prefix_append_of_prefix hopens)

/-- A note that is to stand on one line takes up one more for each break in it. Its first line is a
comment, but the others are whatever they would be without it: they add to the code unless they are
blank or happen to open a comment themselves. -/
theorem annotate_spills {token : Text} {f : FileType} (hf : FileType.ofToken? token = some f)
    {lines : List Text} {n : Nat} (hfirst : 0 < n) (hlast : n ≤ lines.length) {kind : CommentKind}
    (hkind : kind ≠ .multiLine) (note : Text) :
    let rule := CommentRule.ofToken token
    let further := spilled f.family note
    ∃ line result, annotate lines ⟨token, kind, note, n⟩ = .ok result ∧
      result = splice lines (n - 1) (line :: further) ∧
      rule.Is line .comment ∧
      further.length = note.count '\n' ∧
      (Report.ofToken token result).counts.code =
        (Report.ofToken token lines).counts.code + further.countP (rule.Is · .code) ∧
      ('\n' ∉ note → result = splice lines (n - 1) [line] ∧
        (Report.ofToken token result).counts.code = (Report.ofToken token lines).counts.code) := by
  intro rule further
  have hrule : rule = .ofFamily f.family := CommentRule.ofToken_of_known hf
  have hopenings : [] ∉ rule.openings := CommentRule.nil_not_mem_openings _
  obtain ⟨line, hpieces, hcomment⟩ := exists_pieces_ofFamily f.family hkind note
  rw [← hrule] at hcomment
  have hline : ¬ rule.Is line .code := by
    intro hcode
    obtain ⟨opening, hmem, hopens⟩ := hcomment
    exact hcode.2 opening hmem hopens
  have hcode : (Report.ofToken token (splice lines (n - 1) (line :: further))).counts.code =
      (Report.ofToken token lines).counts.code + further.countP (rule.Is · .code) := by
    have hsplice := CommentRule.code_splice hopenings lines (n - 1) (line :: further)
    rw [CommentRule.code_countLines hopenings (line :: further),
      List.countP_cons_of_neg (by simpa using hline)] at hsplice
    exact hsplice
  refine ⟨line, _, annotate_eq_ok_iff.mpr ⟨_, SourceText.format_of_ofToken? hf kind note,
    insert_eq_ok_iff.mpr ⟨hfirst, hlast, by rw [hpieces]⟩⟩, rfl, hcomment,
    length_spilled f.family note, hcode, ?_⟩
  intro hnote
  have hnil : further = [] := (spilled_eq_nil_iff f.family note).mpr hnote
  rw [hnil] at hcode ⊢
  exact ⟨rfl, hcode⟩

/-- The second line of a note lands among the code, although the note is to be a single line. -/
theorem annotate_spills_code :
    let lines := ["x = 1".toList]
    let note := "check\nthis".toList
    FileType.ofToken? "py".toList = some .python ∧ 0 < 1 ∧ 1 ≤ lines.length ∧
      CommentKind.singleLine ≠ .multiLine ∧
      ∃ result, annotate lines ⟨"py".toList, .singleLine, note, 1⟩ = .ok result ∧
        result = ["# check", "this", "x = 1"].map String.toList ∧
        (Report.ofToken "py".toList result).counts.code =
          (Report.ofToken "py".toList lines).counts.code + 1 := by
  intro lines note
  have hf : FileType.ofToken? "py".toList = some .python := rfl
  have hlast : 1 ≤ lines.length := Nat.le_refl 1
  have hkind : CommentKind.singleLine ≠ .multiLine := nofun
  obtain ⟨line, result, hresult, _, _, _, hcode, _⟩ :=
    annotate_spills hf Nat.one_pos hlast hkind note
  have hlines : result = ["# check", "this", "x = 1"].map String.toList :=
    Except.ok.inj (hresult.symm.trans rfl)
  exact ⟨hf, Nat.one_pos, hlast, hkind, result, hresult, hlines, hcode.trans (by decide)⟩

end Marginalia.Insertion
