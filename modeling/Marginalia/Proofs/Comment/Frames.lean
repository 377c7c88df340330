import Marginalia.Comment
import Marginalia.Proofs.Report.Trimmed
/-!
The frames that notes are written in, seen by the rules that tell comments from code. What a family
writes around a note opens like one of its comments, and it neither holds a marker nor makes one
together with the note.
-/

namespace Marginalia

/-- The kind of note that starts with the marker. -/
def Marker.kind : Marker → CommentKind
  | todo => .todo
  | fixme => .fixme

/-- A frame that stands on the line of its note, as the rule sees it: it opens a comment, its blanks
keep it apart from the note, and no marker is in it. -/
structure Frame.Inline (frame : Frame) (rule : CommentRule) : Prop where
  opens : ∃ opening ∈ rule.openings, opening <+: frame.before
  unbroken : '\n' ∉ frame.before ∧ '\n' ∉ frame.after
  before_blank : frame.before.getLast?.all Text.isBlank = true
  after_blank : frame.after.head?.all Text.isBlank = true
  unmarked : ∀ m : Marker, ¬ m.word <:+: frame.before ∧ ¬ m.word <:+: frame.after

namespace Family

theorem inline_lineFrame (family : Family) : family.lineFrame.Inline (.ofFamily family) := by
  have hmarkers : ∀ m : Marker,
      ¬ m.word <:+: family.lineFrame.before ∧ ¬ m.word <:+: family.lineFrame.after := by
    intro m
    rw [← Text.includes_iff, ← Text.includes_iff]
    cases m <;> cases family <;> decide
  refine ⟨?_, ?_, ?_, ?_, hmarkers⟩
  all_goals cases family <;> decide

theorem frame_eq_lineFrame {kind : CommentKind} (h : kind ≠ .multiLine) (family : Family) :
    family.frame kind = family.lineFrame := by
  cases kind with
  | multiLine => contradiction
  | singleLine => rfl
  | todo => rfl
  | fixme => rfl

theorem inline_blockFrame_cLike : cLike.blockFrame.Inline (.ofFamily .cLike) := by
  have hmarkers : ∀ m : Marker,
      ¬ m.word <:+: cLike.blockFrame.before ∧ ¬ m.word <:+: cLike.blockFrame.after := by
    intro m
    rw [← Text.includes_iff, ← Text.includes_iff]
    cases m <;> decide
  exact ⟨by decide, by decide, by decide, by decide, hmarkers⟩

/-- All notes are written on one line but for the blocks of families that give them lines of their
own. -/
theorem inline_frame {family : Family} {kind : CommentKind}
    (h : kind = .multiLine → family = .cLike) : (family.frame kind).Inline (.ofFamily family) := by
  cases kind with
  | multiLine =>
    obtain rfl := h rfl
    exact inline_blockFrame_cLike
  | singleLine => exact family.inline_lineFrame
  | todo => exact family.inline_lineFrame
  | fixme => exact family.inline_lineFrame

/-- The blocks of the other families put an opening on a line before the note and one behind it. -/
theorem blockFrame_eq {family : Family} (h : family ≠ .cLike) :
    ∃ opener ∈ (CommentRule.ofFamily family).openings,
      ∃ closer ∈ (CommentRule.ofFamily family).openings,
        family.frame .multiLine = ⟨opener ++ ['\n'], '\n' :: closer⟩ := by
  cases family with
  | cLike => contradiction
  | python =>
    exact ⟨CommentRule.threeQuotes, by decide, CommentRule.threeQuotes, by decide, rfl⟩
  | markup => exact ⟨CommentRule.angleOpen, by decide, CommentRule.angleClose, by decide, rfl⟩
  | css => exact ⟨CommentRule.slashStar, by decide, CommentRule.starSlash, by decide, rfl⟩

end Family

namespace Comment

theorem label_multiLine : label .multiLine = [] := rfl

theorem label_blank (kind : CommentKind) : (label kind).getLast?.all Text.isBlank = true := by
  cases kind <;> rfl

theorem feed_not_mem_label (kind : CommentKind) : '\n' ∉ label kind := by
  cases kind <;> decide

theorem word_infix_label_iff (m : Marker) (kind : CommentKind) :
    m.word <:+: label kind ↔ kind = m.kind := by
  rw [← Text.includes_iff]
  cases m <;> cases kind <;> decide

variable {family : Family} {kind : CommentKind}

/-- A marker is in a comment on one line if the comment starts with it or the note holds it. -/
theorem word_infix_ofFamily_iff (hline : kind = .multiLine → family = .cLike) (m : Marker)
    (note : Text) : m.word <:+: ofFamily family kind note ↔ kind = m.kind ∨ m.word <:+: note := by
  have hframe := Family.inline_frame hline
  have hbefore := (hframe.unmarked m).1
  have hafter := (hframe.unmarked m).2
  rw [ofFamily, m.isWord_word.infix_append_iff_of_head? _ hframe.after_blank, List.append_assoc,
    m.isWord_word.infix_append_iff_of_getLast? hframe.before_blank,
    m.isWord_word.infix_append_iff_of_getLast? (label_blank kind), word_infix_label_iff]
  simp only [hbefore, hafter, false_or, or_false]

theorem prefix_ofFamily {opening : Text} (h : opening <+: (family.frame kind).before)
    (note : Text) : opening <+: ofFamily family kind note := by
  rw [ofFamily, List.append_assoc, List.append_assoc]
  exact List.prefix_append_of_prefix h

theorem is_comment_ofFamily (hline : kind = .multiLine → family = .cLike) (note : Text) :
    (CommentRule.ofFamily family).Is (ofFamily family kind note) .comment := by
  obtain ⟨opening, hmem, hopens⟩ := (Family.inline_frame hline).opens
  exact ⟨opening, hmem, (CommentRule.isWord_opening hmem).prefix_trim (prefix_ofFamily hopens note)⟩

theorem feed_mem_ofFamily_iff (hline : kind = .multiLine → family = .cLike) (note : Text) :
    '\n' ∈ ofFamily family kind note ↔ '\n' ∈ note := by
  have hunbroken := (Family.inline_frame hline).unbroken
  simp [ofFamily, hunbroken, feed_not_mem_label]

end Comment

end Marginalia
