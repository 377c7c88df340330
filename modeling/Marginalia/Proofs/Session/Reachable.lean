import Marginalia.Proofs.Session.Rereading
/-!
Which sources a session can come to, and what each change does to one. Whatever the notes say, no
line ever gets a break inside it, and the ending and the closing stay in keeping with the lines.
-/

namespace Marginalia

namespace SourceText

/-- A source whose parts agree: only the breaks between its lines are breaks, and what it says of
them is borne out by at least one of them. -/
structure Coherent (s : SourceText) : Prop where
  unbroken : ∀ line ∈ s.lines, '\n' ∉ line
  ne_nil : s.closed = true → s.lines ≠ []
  has_break : s.ending = .crlf → s.closed = true ∨ 2 ≤ s.lines.length

theorem ended_ne_nil_of_cutEnding {c : Cut '\n'} (h : cutEnding c = .crlf) : c.ended ≠ [] := by
  intro hnil
  simp [cutEnding, hnil] at h

theorem coherent_parse (content : Text) : Coherent (parse content) := by
  have hfree := feed_not_mem_parse content
  obtain ⟨c, rfl⟩ := Cut.exists_join '\n' content
  rw [parse_join] at hfree ⊢
  refine ⟨hfree, ?_, ?_⟩
  · intro hclosed hnil
    have hended : c.ended ≠ [] := (of_decide_eq_true hclosed).2
    have hstretches := List.map_eq_nil_iff.mp hnil
    exact hended (Cut.stretches_eq_nil_iff.mp hstretches).1
  · intro he
    have hended := ended_ne_nil_of_cutEnding he
    by_cases hr : c.rest = []
    · exact Or.inl (decide_eq_true ⟨hr, hended⟩)
    · right
      have hpos := List.length_pos_iff.mpr hended
      simp [Cut.stretches, hr]
      omega

theorem Coherent.insert {s : SourceText} (h : Coherent s) {line : Nat} {comment : Text}
    {lines : List Text} (hi : Insertion.insert s.lines line comment = .ok lines) :
    Coherent (s.withLines lines) := by
  obtain ⟨hfirst, hlast, rfl⟩ := Insertion.insert_eq_ok_iff.mp hi
  have hlen := Insertion.length_splice s.lines (by omega : line - 1 ≤ s.lines.length)
    (Insertion.pieces comment)
  refine ⟨?_, ?_, ?_⟩
  · intro x hx
    rcases Insertion.mem_splice hx with hx | hx
    · exact h.unbroken x hx
    · exact Insertion.feed_not_mem_pieces hx
  · intro _ hnil
    have hzero := congrArg List.length hnil
    simp only [withLines, hlen, List.length_nil] at hzero
    omega
  · intro he
    rcases h.has_break he with hclosed | htwo
    · exact Or.inl hclosed
    · right
      simp only [withLines, hlen]
      omega

theorem count_feed_written {lines : List Text} (h : ∀ line ∈ lines, '\n' ∉ line)
    (e : LineEnding) : (lines.flatMap (· ++ e.text)).count '\n' = lines.length := by
  induction lines with
  | nil => rfl
  | cons line lines ih =>
    have hline : line.count '\n' = 0 := List.count_eq_zero.mpr (h line (by simp))
    have hending : e.text.count '\n' = 1 := by cases e <;> rfl
    have hlines := ih (fun l hl => h l (List.mem_cons_of_mem line hl))
    rw [List.flatMap_cons, List.count_append, List.count_append, hline, hending, hlines,
      List.length_cons]
    omega

/-- The breaks of the written text are those between the lines, and one more if it is closed. -/
theorem Coherent.count_feed_render {s : SourceText} (h : Coherent s) :
    s.render.count '\n' = s.lines.length - 1 + if s.closed then 1 else 0 := by
  obtain ⟨lines, e, closed⟩ := s
  cases closed with
  | true =>
    have hpos := List.length_pos_iff.mpr (h.ne_nil rfl)
    have hfeeds := count_feed_written h.unbroken e
    rw [render_closed]
    simp only [if_true] at hpos hfeeds ⊢
    omega
  | false =>
    rcases List.eq_nil_or_concat' lines with rfl | ⟨others, last, rfl⟩
    · rfl
    · have hlast : last.count '\n' = 0 := List.count_eq_zero.mpr (h.unbroken last (by simp))
      have hfeeds := count_feed_written
        (fun line hl => h.unbroken line (List.mem_append_left _ hl)) e
      rw [render_open_concat, List.count_append, hlast, hfeeds]
      simp

/-- `t` is `s` with the lines of a comment before one of its lines: they can be taken out again, and
what ends the source stays as it was. -/
structure Adds (s : SourceText) (line : Nat) (comment : Text) (t : SourceText) : Prop where
  ending_eq : t.ending = s.ending
  closed_eq : t.closed = s.closed
  last_eq : t.lines.getLast? = s.lines.getLast?
  added : (t.lines.drop (line - 1)).take (Insertion.pieces comment).length =
    Insertion.pieces comment
  removed : t.lines.take (line - 1) ++
    t.lines.drop (line - 1 + (Insertion.pieces comment).length) = s.lines

theorem adds_of_insert {s : SourceText} {line : Nat} {comment : Text} {lines : List Text}
    (hi : Insertion.insert s.lines line comment = .ok lines) :
    Adds s line comment (s.withLines lines) := by
  obtain ⟨hfirst, hlast, rfl⟩ := Insertion.insert_eq_ok_iff.mp hi
  have hlen : (s.lines.take (line - 1)).length = line - 1 := by
    rw [List.length_take]
    omega
  have hsplice : Insertion.splice s.lines (line - 1) (Insertion.pieces comment) =
      s.lines.take (line - 1) ++ (Insertion.pieces comment ++ s.lines.drop (line - 1)) :=
    List.append_assoc ..
  refine ⟨rfl, rfl, Insertion.getLast?_splice (by omega) _, ?_, ?_⟩
  · rw [lines_withLines, hsplice, List.drop_left' hlen, List.take_left]
  · rw [lines_withLines, hsplice, ← List.drop_drop, List.drop_left' hlen, List.drop_left,
      List.take_left' hlen, List.take_append_drop]

/-- The breaks of a text are those that its source tells of. -/
theorem count_feed_eq (content : Text) :
    content.count '\n' =
      (parse content).lines.length - 1 + if (parse content).closed then 1 else 0 := by
  obtain ⟨c, rfl⟩ := Cut.exists_join '\n' content
  have hended : (c.ended.flatMap (· ++ ['\n'])).count '\n' = c.ended.length :=
    count_feed_written c.ended_free .lf
  have hrest : c.rest.count '\n' = 0 := List.count_eq_zero.mpr c.rest_free
  rw [parse_join, Cut.join, List.count_append, hended, hrest]
  by_cases hr : c.rest = []
  · cases he : c.ended with
    | nil => simp [Cut.stretches, hr, he]
    | cons first others => simp [Cut.stretches, hr, he]
  · simp [Cut.stretches, hr]

/-- A note that is added shows in the text: there are more breaks than before. -/
theorem render_ne_of_annotate {content : Text} {r : Request} {t : SourceText}
    (h : (parse content).annotate r = .ok t) : t.render ≠ content := by
  obtain ⟨lines, ha, rfl⟩ := annotate_eq_ok_iff.mp h
  obtain ⟨comment, _, hi⟩ := Insertion.annotate_eq_ok_iff.mp ha
  have hafter := ((coherent_parse content).insert hi).count_feed_render
  obtain ⟨hfirst, hlast, rfl⟩ := Insertion.insert_eq_ok_iff.mp hi
  have hlength := Insertion.length_splice (parse content).lines
    (by omega : r.line - 1 ≤ (parse content).lines.length) (Insertion.pieces comment)
  have hpieces := List.length_pos_iff.mpr (Insertion.pieces_ne_nil comment)
  have hclosed : ∀ lines, ((parse content).withLines lines).closed = (parse content).closed :=
    fun _ => rfl
  intro he
  rw [he, count_feed_eq, lines_withLines, hlength, hclosed] at hafter
  omega

end SourceText

namespace Insertion

theorem insert_eq_error_iff {lines : List Text} {line : Nat} {comment : Text} {e : Failure} :
    insert lines line comment = .error e ↔
      (line = 0 ∨ lines.length < line) ∧ e = .lineOutOfRange line lines.length := by
  unfold insert
  split
  · simp [*, eq_comm]
  · simp [*]

theorem annotate_eq_error_iff {lines : List Text} {r : Request} {e : Failure} :
    annotate lines r = .error e ↔
      (FileType.ofToken? r.fileType = none ∧ e = .unsupportedFileType r.fileType) ∨
      (FileType.ofToken? r.fileType ≠ none ∧ (r.line = 0 ∨ lines.length < r.line) ∧
        e = .lineOutOfRange r.line lines.length) := by
  cases hf : FileType.ofToken? r.fileType with
  | none =>
    simp [annotate, Comment.format, FileType.require, hf, bind, Except.bind, eq_comm]
  | some f =>
    have hc := SourceText.format_of_ofToken? hf r.kind r.note
    have hi : annotate lines r =
        insert lines r.line (Comment.ofFamily f.family r.kind r.note) := by
      rw [annotate, hc]
      rfl
    rw [hi, insert_eq_error_iff]
    simp

end Insertion

theorem SourceText.annotate_eq_error_iff {s : SourceText} {r : Request} {e : Failure} :
    s.annotate r = .error e ↔ Insertion.annotate s.lines r = .error e := by
  cases ha : Insertion.annotate s.lines r <;> simp [annotate, ha, Except.map]

namespace Session
open SourceText

theorem edit_coherent {s : SourceText} (hs : s.Coherent) {result : Except Failure (List Text)}
    (h : ∀ lines, result = .ok lines → (s.withLines lines).Coherent) :
    (edit s result).2.Coherent := by
  cases result with
  | error e => exact hs
  | ok lines => exact h lines rfl

theorem step_coherent {s : SourceText} (hs : s.Coherent) (next : Step) :
    (step s next).2.Coherent := by
  cases next with
  | report token => exact hs
  | search term =>
    simp only [step]
    split
    · exact hs
    · exact hs
  | insert line comment => exact edit_coherent hs (fun _ hi => hs.insert hi)
  | annotate request =>
    apply edit_coherent hs
    intro lines ha
    obtain ⟨comment, _, hi⟩ := Insertion.annotate_eq_ok_iff.mp ha
    exact hs.insert hi
  | render => exact hs
  | reread => exact coherent_parse _
  | load content => exact coherent_parse content

theorem run_coherent {s : SourceText} (hs : s.Coherent) (steps : List Step) :
    (run s steps).2.Coherent := by
  induction steps generalizing s with
  | nil => exact hs
  | cons next steps ih => exact ih (step_coherent hs next)

theorem edit_failure_iff {s : SourceText} {result : Except Failure (List Text)} {e : Failure} :
    (edit s result).1 = .failure e ↔ result = .error e := by
  cases result with
  | error other => simp [edit]
  | ok lines => simp [edit]

/-- A comment that is put into a source is refused and nothing changes, or its lines are added. -/
theorem edit_insert (s : SourceText) (line : Nat) (comment : Text) :
    (∃ e, edit s (Insertion.insert s.lines line comment) = (.failure e, s)) ∨
    ∃ t, edit s (Insertion.insert s.lines line comment) = (.lines t.lines, t) ∧
      s.Adds line comment t := by
  cases hi : Insertion.insert s.lines line comment with
  | error e => exact Or.inl ⟨e, rfl⟩
  | ok lines => exact Or.inr ⟨s.withLines lines, rfl, adds_of_insert hi⟩

theorem edit_annotate (s : SourceText) (r : Request) :
    (∃ e, edit s (Insertion.annotate s.lines r) = (.failure e, s)) ∨
    ∃ comment t, Comment.format r.fileType r.kind r.note = .ok comment ∧
      edit s (Insertion.annotate s.lines r) = (.lines t.lines, t) ∧ s.Adds r.line comment t := by
  cases ha : Insertion.annotate s.lines r with
  | error e => exact Or.inl ⟨e, rfl⟩
  | ok lines =>
    obtain ⟨comment, hc, hi⟩ := Insertion.annotate_eq_ok_iff.mp ha
    exact Or.inr ⟨comment, s.withLines lines, hc, rfl, adds_of_insert hi⟩

/-- Every source that a session comes to is coherent and is written with just the breaks that it
tells of. A change to it fails just for an unknown type, or else for a number that names no line,
and leaves it as it was; otherwise it adds the comment's lines and nothing more. -/
theorem reachable_coherent (content : Text) (steps : List Step) :
    let s := (run (.parse content) steps).2
    s.Coherent ∧
    s.render.count '\n' = s.lines.length - 1 + (if s.closed then 1 else 0) ∧
    (∀ line comment,
      (∀ e, (step s (.insert line comment)).1 = .failure e ↔
        (line = 0 ∨ s.lines.length < line) ∧ e = .lineOutOfRange line s.lines.length) ∧
      ((∃ e, step s (.insert line comment) = (.failure e, s)) ∨
        ∃ t, step s (.insert line comment) = (.lines t.lines, t) ∧ s.Adds line comment t)) ∧
    ∀ r : Request,
      (∀ e, (step s (.annotate r)).1 = .failure e ↔
        (FileType.ofToken? r.fileType = none ∧ e = .unsupportedFileType r.fileType) ∨
        (FileType.ofToken? r.fileType ≠ none ∧ (r.line = 0 ∨ s.lines.length < r.line) ∧
          e = .lineOutOfRange r.line s.lines.length)) ∧
      ((∃ e, step s (.annotate r) = (.failure e, s)) ∨
        ∃ comment t, Comment.format r.fileType r.kind r.note = .ok comment ∧
          step s (.annotate r) = (.lines t.lines, t) ∧ s.Adds r.line comment t) := by
  intro s
  have hs : s.Coherent := run_coherent (coherent_parse content) steps
  refine ⟨hs, hs.count_feed_render, ?_, ?_⟩
  · intro line comment
    refine ⟨?_, edit_insert s line comment⟩
    intro e
    exact edit_failure_iff.trans Insertion.insert_eq_error_iff
  · intro r
    refine ⟨?_, edit_annotate s r⟩
    intro e
    exact edit_failure_iff.trans Insertion.annotate_eq_error_iff

end Session

end Marginalia
