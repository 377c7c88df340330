import Marginalia.Proofs.CommandLine.Switching
import Marginalia.Proofs.Program.Effects
/-!
A dry run against the run that it stands for: what the one prints and the other leaves in the file,
and that they fail alike.
-/

namespace Marginalia

namespace SourceText

/-- The first break of a text is a line feed alone. -/
def FirstBreakBare (content : Text) : Prop :=
  ∃ before after, content = before ++ '\n' :: after ∧ '\n' ∉ before ∧
    before.getLast? ≠ some '\r'

theorem firstBreakBare_iff {content : Text} :
    FirstBreakBare content ↔ '\n' ∈ content ∧ endingOf content = .lf := by
  constructor
  · intro h
    obtain ⟨before, after, rfl, hfree, hbare⟩ := h
    refine ⟨by simp, ?_⟩
    rw [endingOf, takeWhile_before_feed hfree]
    simp [hbare]
  · intro h
    obtain ⟨hmem, hending⟩ := h
    obtain ⟨before, after, rfl, hfree⟩ := List.eq_append_cons_of_mem hmem
    refine ⟨before, after, rfl, hfree, ?_⟩
    intro hreturn
    rw [endingOf, takeWhile_before_feed hfree, if_pos ⟨hmem, hreturn⟩] at hending
    cases hending

/-- The lines of a source, each printed on its own. -/
def printed (s : SourceText) : Text := (s.lines.map (Text.line [·])).flatten

theorem printed_eq (s : SourceText) : s.printed = s.lines.flatMap (· ++ LineEnding.lf.text) := by
  simp [printed, Text.line, List.flatMap_def, LineEnding.text]

theorem length_written_crlf (lines : List Text) :
    (lines.flatMap (· ++ LineEnding.crlf.text)).length =
      (lines.flatMap (· ++ LineEnding.lf.text)).length + lines.length := by
  induction lines with
  | nil => rfl
  | cons line lines ih =>
    have hlf : LineEnding.lf.text.length = 1 := rfl
    have hcrlf : LineEnding.crlf.text.length = 2 := rfl
    simp only [List.flatMap_cons, List.length_append, List.length_cons, ih, hlf, hcrlf]
    omega

/-- Printed line by line, a source is its own text just if that is closed and broken by bare line
feeds. An open text has a break less; one with returns is longer, whatever stands in its lines. -/
theorem printed_eq_render_iff {s : SourceText} (hs : s.Coherent) (hne : s.lines ≠ []) :
    s.printed = s.render ↔ s.ending = .lf ∧ s.closed = true := by
  have hpos := List.length_pos_iff.mpr hne
  have hbreaks := hs.count_feed_render
  have hprinted : s.printed.count '\n' = s.lines.length := by
    rw [printed_eq]
    exact count_feed_written hs.unbroken .lf
  obtain ⟨lines, ending, closed⟩ := s
  constructor
  · intro h
    rw [h] at hprinted
    cases closed with
    | false =>
      simp only [Bool.false_eq_true, if_false] at hbreaks hprinted hpos
      omega
    | true =>
      refine ⟨?_, rfl⟩
      cases ending with
      | lf => rfl
      | crlf =>
        have hlength := congrArg List.length h
        rw [printed_eq, render_closed, length_written_crlf] at hlength
        simp only at hlength hpos
        omega
  · intro h
    obtain ⟨rfl, rfl⟩ : ending = .lf ∧ closed = true := h
    rw [printed_eq, render_closed]

/-- A note changes nothing about how a text is broken. -/
theorem printed_annotate_eq_iff {content : Text} {r : Request} {t : SourceText}
    (h : (parse content).annotate r = .ok t) :
    t.printed = t.render ↔ FirstBreakBare content ∧ content.getLast? = some '\n' := by
  obtain ⟨lines, ha, rfl⟩ := annotate_eq_ok_iff.mp h
  obtain ⟨comment, _, hi⟩ := Insertion.annotate_eq_ok_iff.mp ha
  have hcoherent := (coherent_parse content).insert hi
  obtain ⟨hfirst, hlast, rfl⟩ := Insertion.insert_eq_ok_iff.mp hi
  have hne : ((parse content).withLines (Insertion.splice (parse content).lines (r.line - 1)
      (Insertion.pieces comment))).lines ≠ [] := by
    intro hnil
    have hlength := Insertion.length_splice (parse content).lines
      (by omega : r.line - 1 ≤ (parse content).lines.length) (Insertion.pieces comment)
    rw [lines_withLines] at hnil
    rw [hnil, List.length_nil] at hlength
    omega
  rw [printed_eq_render_iff hcoherent hne, firstBreakBare_iff]
  have hclosed : (parse content).closed = true ↔ content.getLast? = some '\n' := beq_iff_eq
  constructor
  · intro hlf
    have hend := hclosed.mp hlf.2
    exact ⟨⟨List.mem_of_getLast? hend, hlf.1⟩, hend⟩
  · intro hbare
    exact ⟨hbare.1.2, hclosed.mpr hbare.2⟩

end SourceText

namespace Disk

/-- What keeps a note from being added to a file, in the order in which it is looked for. -/
inductive Obstacle (d : Disk) (p : Path) (r : Request) : Failure → Prop
  | unread {fault : Fault} (h : d.contents p = .error fault) :
      Obstacle d p r (.file .reading p fault)
  | notUtf8 {bytes : Bytes} (h : d.contents p = .ok bytes) (hbytes : Utf8.decode? bytes = none) :
      Obstacle d p r (.file .reading p .notUtf8)
  | unknownType {s : SourceText} (h : d.source p = .ok s)
      (htype : FileType.ofToken? r.fileType = none) :
      Obstacle d p r (.unsupportedFileType r.fileType)
  | noSuchLine {s : SourceText} (h : d.source p = .ok s)
      (htype : FileType.ofToken? r.fileType ≠ none) (hline : r.line = 0 ∨ s.lines.length < r.line) :
      Obstacle d p r (.lineOutOfRange r.line s.lines.length)

theorem source_eq_error_iff {d : Disk} {p : Path} {e : Failure} :
    d.source p = .error e ↔
      (∃ fault, d.contents p = .error fault ∧ e = .file .reading p fault) ∨
      ∃ bytes, d.contents p = .ok bytes ∧ Utf8.decode? bytes = none ∧
        e = .file .reading p .notUtf8 := by
  unfold source
  cases d.contents p with
  | error fault => simp [eq_comm]
  | ok bytes => cases hdecoded : Utf8.decode? bytes <;> simp [hdecoded, eq_comm]

theorem annotated_eq_error_iff {d : Disk} {p : Path} {r : Request} {e : Failure} :
    d.annotated p r = .error e ↔ Obstacle d p r e := by
  constructor
  · intro h
    cases hs : d.source p with
    | error other =>
      rw [annotated, hs] at h
      obtain rfl : other = e := Except.error.inj h
      rcases source_eq_error_iff.mp hs with ⟨fault, hfault, rfl⟩ | ⟨bytes, hbytes, hnone, rfl⟩
      · exact .unread hfault
      · exact .notUtf8 hbytes hnone
    | ok s =>
      rw [annotated, hs] at h
      have hi : Insertion.annotate s.lines r = .error e := SourceText.annotate_eq_error_iff.mp h
      rcases Insertion.annotate_eq_error_iff.mp hi with ⟨htype, rfl⟩ | ⟨htype, hline, rfl⟩
      · exact .unknownType hs htype
      · exact .noSuchLine hs htype hline
  · intro h
    cases h with
    | unread h =>
      rw [annotated, source_eq_error_iff.mpr (Or.inl ⟨_, h, rfl⟩)]
      rfl
    | notUtf8 h hbytes =>
      rw [annotated, source_eq_error_iff.mpr (Or.inr ⟨_, h, hbytes, rfl⟩)]
      rfl
    | unknownType h htype =>
      rw [annotated, h]
      apply SourceText.annotate_eq_error_iff.mpr
      exact Insertion.annotate_eq_error_iff.mpr (Or.inl ⟨htype, rfl⟩)
    | noSuchLine h htype hline =>
      rw [annotated, h]
      apply SourceText.annotate_eq_error_iff.mpr
      exact Insertion.annotate_eq_error_iff.mpr (Or.inr ⟨htype, hline, rfl⟩)

end Disk

namespace Program

/-- Every run that would add a note has a dry one. If the real run ends well, so does the dry one,
which prints just the text that the other leaves in the file if the file's first break is a bare
line feed and a line feed ends it, and only then. What keeps a note from being added stops both of
them with the same words. -/
theorem dryRun_agrees {d : Disk} (hd : d.top.Sound) (e : Environment) {words : List Bytes}
    {file : Path} {line : Nat} {kind : CommentKind} {fileType : Option Text} {note : Text}
    (hwords : Invocation.read words = .ok (.annotate file line kind fileType note false)) :
    (∃ rest, words = Utf8.encode "annotate".toList :: rest ∧
      Invocation.read (Utf8.encode "annotate".toList :: Utf8.encode "--dry-run".toList :: rest) =
        .ok (.annotate file line kind fileType note true)) ∧
    ∀ dry, Invocation.read dry = .ok (.annotate file line kind fileType note true) →
      let done := on d e words
      let shown := on d e dry
      (done.1.code = 0 → shown.1.code = 0 ∧ shown.2 = d ∧
        ∃ bytes content data, d.contents file = .ok bytes ∧ Utf8.decode? bytes = some content ∧
          done.2.contents file = .ok data ∧
          (Utf8.encode shown.1.out.flatten = data ↔
            SourceText.FirstBreakBare content ∧ content.getLast? = some '\n')) ∧
      ∀ failure, d.Obstacle file (Command.requestFor file line kind fileType note) failure →
        done = (⟨1, [], [failureLine e.ink failure]⟩, d) ∧
        shown = (⟨1, [], [failureLine e.ink failure]⟩, d) := by
  refine ⟨Invocation.exists_dryRun hwords, ?_⟩
  intro dry hdry done shown
  simp only [done, shown]
  rw [on_of_read hwords, on_of_read hdry]
  constructor
  · intro hcode
    rcases Command.on_annotate_cases hd e.ink file line kind fileType note with
      ⟨failure, hon⟩ | ⟨t, place, name, ht, hnames, hflat, hon⟩
    · rw [hon] at hcode
      cases hcode
    · obtain ⟨bytes, content, hbytes, hcontent, ha⟩ := Disk.annotated_eq_ok ht
      rw [hon, Command.on_annotate_dry e.ink ht]
      refine ⟨rfl, rfl, bytes, content, Utf8.encode t.render, hbytes, hcontent,
        hnames.contents_put hflat hbytes _, ?_⟩
      rw [← SourceText.printed_annotate_eq_iff ha]
      exact Utf8.encode_inj
  · intro failure hobstacle
    have hannotated := Disk.annotated_eq_error_iff.mpr hobstacle
    rw [Command.on_annotate_of_error e.ink hannotated false,
      Command.on_annotate_of_error e.ink hannotated true]
    exact ⟨rfl, rfl⟩

theorem dryRun_agrees_linked :
    let annotate := Utf8.encode "annotate".toList
    let rest := ["/w/link/lib.rs".toList, "-l1".toList, "-tc".toList, "--text=note".toList].map
      Utf8.encode
    let done := on Disk.linked ⟨none, none⟩ (annotate :: rest)
    let shown := on Disk.linked ⟨none, none⟩ (annotate :: Utf8.encode "--dry-run".toList :: rest)
    done.2.contents (.ofText "/w/link/lib.rs".toList) =
      .ok (Utf8.encode shown.1.out.flatten) := by
  intro annotate rest done shown
  have hwords : Invocation.read (annotate :: rest) =
      .ok (.annotate (.ofText "/w/link/lib.rs".toList) 1 .singleLine (some ['c']) "note".toList
        false) := rfl
  have hcode : done.1.code = 0 := by decide +kernel
  have hread : Disk.linked.contents (.ofText "/w/link/lib.rs".toList) =
      .ok (Utf8.encode "// TODO\n".toList) := by decide +kernel
  simp only [done, shown] at hcode ⊢
  -- From here on the words are any that read so, and nothing is computed any more.
  clear_value rest
  obtain ⟨⟨other, hrest, hdry⟩, hagree⟩ :=
    dryRun_agrees Disk.linked_sound ⟨none, none⟩ hwords
  obtain rfl := List.tail_eq_of_cons_eq hrest
  obtain ⟨_, _, bytes, content, data, hbytes, hcontent, hdata, hiff⟩ := (hagree _ hdry).1 hcode
  obtain rfl := Except.ok.inj (hread.symm.trans hbytes)
  obtain rfl := Option.some.inj ((Utf8.decode?_encode _).symm.trans hcontent)
  have hbare : SourceText.FirstBreakBare "// TODO\n".toList :=
    SourceText.firstBreakBare_iff.mpr ⟨by decide, by decide⟩
  rw [hdata, hiff.mpr ⟨hbare, by decide⟩]

end Program

end Marginalia
