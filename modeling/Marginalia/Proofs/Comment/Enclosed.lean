import Marginalia.Proofs.Comment.Frames
import Marginalia.Proofs.SourceText.Splicing
/-!
Comments that go on to their end. A note is written into its comment as it is, so it may close the
comment before all of it is written. It does just if it holds what closes a comment of that form:
the blanks and labels around the note never make a closing together with it.
-/

namespace Marginalia

namespace Comment

/-- A form of comment: what opens it and what closes it, if it does not go on to the end of its
line. -/
structure Form where
  opening : Text
  closing : Option Text
deriving DecidableEq, Repr

namespace Form

/-- What ends a comment of that form, wherever it first comes. -/
def terminator (form : Form) : Text := form.closing.getD ['\n']

/-- The comment that the text opens with goes on to the end of the text. What closes it stands at
the end and nowhere before. -/
def Encloses (form : Form) (t : Text) : Prop :=
  match form.closing with
  | none => form.opening <+: t ∧ '\n' ∉ t
  | some closing => ∃ inner, t = form.opening ++ inner ++ closing ∧
      ∀ before after, inner ++ closing = before ++ closing ++ after → after = []

/-- A form that the rule tells from code, with the delimiters of its block. -/
structure Known (form : Form) (rule : CommentRule) : Prop where
  opens : form.opening ∈ rule.openings
  closes : ∀ closing ∈ form.closing, rule.block = some (form.opening, closing)

end Form

end Comment

namespace Family

open Comment CommentRule

def blockForm : Family → Form
  | cLike => ⟨slashStar, some starSlash⟩
  | python => ⟨threeQuotes, some threeQuotes⟩
  | markup => ⟨angleOpen, some angleClose⟩
  | css => ⟨slashStar, some starSlash⟩

/-- The families without a comment that goes on to the end of its line write a block. -/
def lineForm : Family → Form
  | cLike => ⟨slashSlash, none⟩
  | python => ⟨hashMark, none⟩
  | markup => markup.blockForm
  | css => css.blockForm

/-- The form in which a kind of comment is written. -/
def form (family : Family) : CommentKind → Form
  | .multiLine => family.blockForm
  | .singleLine | .todo | .fixme => family.lineForm

theorem known_form (family : Family) (kind : CommentKind) :
    (family.form kind).Known (.ofFamily family) := by
  refine ⟨?_, ?_⟩
  all_goals cases family <;> cases kind <;> decide

theorem closing_form_eq_none_iff (family : Family) (kind : CommentKind) :
    (family.form kind).closing = none ↔
      kind ≠ .multiLine ∧ (family = .cLike ∨ family = .python) := by
  cases family <;> cases kind <;> decide

end Family

/-- The closing of a block is a word, and no label has it. -/
theorem CommentRule.closing_of_block {family : Family} {opening closing : Text}
    (h : (ofFamily family).block = some (opening, closing)) :
    Text.IsWord closing ∧ ∀ kind, ¬ closing <:+: Comment.label kind := by
  have hall : ∀ block ∈ (ofFamily family).block, Text.IsWord block.2 ∧
      ∀ kind ∈ CommentKind.all, Text.includes block.2 (Comment.label kind) = false := by
    cases family <;> decide
  obtain ⟨hword, hlabels⟩ := hall (opening, closing) h
  refine ⟨hword, ?_⟩
  intro kind hin
  rw [← Text.includes_iff, hlabels kind kind.mem_all] at hin
  contradiction

/-- A frame that writes a form: a blank keeps the note apart from what opens and closes it. -/
inductive Frame.Writes : Frame → Comment.Form → Prop where
  | line (opening : Text) : Writes ⟨opening ++ [' '], []⟩ ⟨opening, none⟩
  | block (opening closing : Text) {gap : Char} (hgap : Text.isBlank gap = true) :
      Writes ⟨opening ++ [gap], gap :: closing⟩ ⟨opening, some closing⟩

namespace Family

open CommentRule

theorem writes_blockForm (family : Family) : family.blockFrame.Writes family.blockForm := by
  have hspace : Text.isBlank ' ' = true := rfl
  have hfeed : Text.isBlank '\n' = true := rfl
  cases family with
  | cLike => exact .block slashStar starSlash hspace
  | python => exact .block threeQuotes threeQuotes hfeed
  | markup => exact .block angleOpen angleClose hfeed
  | css => exact .block slashStar starSlash hfeed

theorem writes_lineForm (family : Family) : family.lineFrame.Writes family.lineForm := by
  have hspace : Text.isBlank ' ' = true := rfl
  cases family with
  | cLike => exact .line slashSlash
  | python => exact .line hashMark
  | markup => exact .block angleOpen angleClose hspace
  | css => exact .block slashStar starSlash hspace

theorem writes_form (family : Family) (kind : CommentKind) :
    (family.frame kind).Writes (family.form kind) := by
  cases kind with
  | multiLine => exact family.writes_blockForm
  | singleLine => exact family.writes_lineForm
  | todo => exact family.writes_lineForm
  | fixme => exact family.writes_lineForm

end Family

theorem Frame.Writes.opens {frame : Frame} {form : Comment.Form} (h : frame.Writes form) :
    form.opening <+: frame.before := by
  cases h with
  | line opening => exact List.prefix_append opening _
  | block opening closing hgap => exact List.prefix_append opening _

namespace Comment

/-- Between its delimiters, and apart from them, a note can hold anything but the closing one. -/
theorem encloses_block_iff {opening closing label : Text} {gap : Char}
    (hgap : Text.isBlank gap = true) (hclosing : Text.IsWord closing)
    (hlabel : label.getLast?.all Text.isBlank = true) (hfree : ¬ closing <:+: label) (note : Text) :
    Form.Encloses ⟨opening, some closing⟩
      (opening ++ [gap] ++ label ++ note ++ gap :: closing) ↔ ¬ closing <:+: note := by
  have hout : opening ++ [gap] ++ label ++ note ++ gap :: closing =
      opening ++ ([gap] ++ (label ++ (note ++ [gap]))) ++ closing := by simp
  have hgaps : ∀ c ∈ [gap], Text.isBlank c = true := by simpa using hgap
  have hlast : ([gap] ++ (label ++ (note ++ [gap]))).getLast?.all Text.isBlank = true := by
    rw [← List.append_assoc, ← List.append_assoc, List.getLast?_concat]
    exact hgap
  have hinner : closing <:+: [gap] ++ (label ++ (note ++ [gap])) ↔ closing <:+: note := by
    rw [hclosing.infix_append_iff_of_getLast? (by simpa using hgap),
      hclosing.infix_append_iff_of_getLast? hlabel,
      hclosing.infix_append_iff_of_head? note (by simpa using hgap)]
    simp only [hclosing.not_infix_of_blank hgaps, hfree, false_or, or_false]
  rw [hout, ← hinner]
  constructor
  · intro h hin
    obtain ⟨inner, he, hfirst⟩ := h
    obtain rfl : [gap] ++ (label ++ (note ++ [gap])) = inner :=
      List.append_cancel_left (List.append_cancel_right he)
    obtain ⟨before, after, he⟩ := hin
    have hnil := hfirst before (after ++ closing) (by rw [← he]; simp)
    exact hclosing.ne_nil (List.append_eq_nil_iff.mp hnil).2
  · intro hnone
    exact ⟨_, rfl, fun before after h => hclosing.eq_nil_of_append_eq hlast hnone h⟩

/-- On a line of its own a note can hold anything but a break. -/
theorem encloses_line_iff {opening label : Text} (hopening : '\n' ∉ opening) (hlabel : '\n' ∉ label)
    (note : Text) :
    Form.Encloses ⟨opening, none⟩ (opening ++ [' '] ++ label ++ note ++ []) ↔ '\n' ∉ note := by
  have hopens : opening <+: opening ++ [' '] ++ label ++ note ++ [] := by simp
  have hfeed : '\n' ∈ opening ++ [' '] ++ label ++ note ++ [] ↔ '\n' ∈ note := by
    simp [hopening, hlabel]
  rw [← hfeed]
  exact and_iff_right hopens

/-- A comment ends with its text just if the note does not hold what ends it. -/
theorem encloses_ofFamily_iff (family : Family) (kind : CommentKind) (note : Text) :
    (family.form kind).Encloses (ofFamily family kind note) ↔
      ¬ (family.form kind).terminator <:+: note := by
  have hknown := family.known_form kind
  have hwrites := family.writes_form kind
  rw [ofFamily]
  -- From here on it matters only that the frame writes the form, whatever the family is.
  generalize family.form kind = form, family.frame kind = frame at hknown hwrites
  cases hwrites with
  | line opening =>
    have hopening : '\n' ∉ opening := by
      intro hfeed
      have hink := (CommentRule.isWord_opening hknown.opens).ink '\n' hfeed
      cases hink
    have hterminator : ['\n'] <:+: note ↔ '\n' ∈ note := List.singleton_infix_iff '\n' note
    rw [encloses_line_iff hopening (feed_not_mem_label kind), ← hterminator]
    rfl
  | block opening closing hgap =>
    obtain ⟨hclosing, hlabels⟩ := CommentRule.closing_of_block (hknown.closes closing rfl)
    exact encloses_block_iff hgap hclosing (label_blank kind) (hlabels kind) note

/-- A note is written as a comment of its file type. The comment goes on to the end of what is
written, and no further piece of the note is left over behind it, just if the note does not hold
what ends such a comment: a break where it takes up the rest of its line, and otherwise the closing
delimiter of its block. -/
theorem format_encloses_iff {token : Text} {f : FileType} (hf : FileType.ofToken? token = some f)
    (kind : CommentKind) (note : Text) :
    let rule := CommentRule.ofToken token
    let form := f.family.form kind
    ∃ out, format token kind note = .ok out ∧
      form.opening ∈ rule.openings ∧ form.opening <+: out ∧
      (form.closing = none ↔ kind ≠ .multiLine ∧ (f.family = .cLike ∨ f.family = .python)) ∧
      (∀ closing ∈ form.closing, rule.block = some (form.opening, closing)) ∧
      (form.Encloses out ↔ ¬ form.terminator <:+: note) := by
  intro rule form
  have hrule : rule = .ofFamily f.family := CommentRule.ofToken_of_known hf
  have hknown : form.Known rule := hrule ▸ f.family.known_form kind
  have hopens : form.opening <+: ofFamily f.family kind note :=
    prefix_ofFamily (f.family.writes_form kind).opens note
  exact ⟨_, SourceText.format_of_ofToken? hf kind note, hknown.opens, hopens,
    f.family.closing_form_eq_none_iff kind, hknown.closes, encloses_ofFamily_iff f.family kind note⟩

/-- A star before the closing delimiter does not make one, and one within the note ends the comment
too soon. -/
theorem format_encloses_iff_stars :
    let token := "css".toList
    FileType.ofToken? token = some .css ∧
      (∃ out, format token .todo "a*".toList = .ok out ∧ out = "/* TODO: a* */".toList ∧
        (FileType.css.family.form .todo).Encloses out) ∧
      ∃ out, format token .todo "a*/b".toList = .ok out ∧
        ¬ (FileType.css.family.form .todo).Encloses out := by
  intro token
  have hf : FileType.ofToken? token = some .css := rfl
  have hterminator : (FileType.css.family.form .todo).terminator = "*/".toList := rfl
  obtain ⟨out, hout, _, _, _, _, henclosed⟩ := format_encloses_iff hf .todo "a*".toList
  obtain ⟨broken, hbroken, _, _, _, _, hescaped⟩ := format_encloses_iff hf .todo "a*/b".toList
  have hwhole : out = "/* TODO: a* */".toList := Except.ok.inj (hout.symm.trans rfl)
  have hsafe : ¬ "*/".toList <:+: "a*".toList := by decide
  have hunsafe : "*/".toList <:+: "a*/b".toList := ⟨"a".toList, "b".toList, rfl⟩
  exact ⟨hf, ⟨out, hout, hwhole, henclosed.mpr (hterminator ▸ hsafe)⟩, broken, hbroken,
    fun h => hescaped.mp h (hterminator ▸ hunsafe)⟩

end Comment

end Marginalia
