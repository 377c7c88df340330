import Marginalia.Proofs.SourceText.RoundTrip
/-!
Adding lines to a source, told of its text: what is written out is the old text with the new lines,
breaks and all, put in where the next line starts.
-/

namespace Marginalia

/-- How far into a text the line starts that stands after `n` line feeds. -/
def Text.lineStart : Nat → Text → Nat
  | 0, _ => 0
  | _ + 1, [] => 0
  | n + 1, c :: rest => 1 + lineStart (if c = '\n' then n else n + 1) rest

theorem Text.lineStart_zero (t : Text) : lineStart 0 t = 0 := by
  cases t <;> rfl

theorem Text.lineStart_append {line : Text} (h : '\n' ∉ line) (n : Nat) (after : Text) :
    lineStart (n + 1) (line ++ '\n' :: after) = line.length + 1 + lineStart n after := by
  induction line with
  | nil => simp [lineStart]
  | cons c line ih =>
    have hc : c ≠ '\n' := fun e => h (by simp [e])
    have hline : '\n' ∉ line := fun hm => h (by simp [hm])
    simp only [List.cons_append, lineStart, hc, if_false, ih hline, List.length_cons]
    omega

namespace Insertion

theorem feed_not_mem_pieces {comment piece : Text} (h : piece ∈ pieces comment) : '\n' ∉ piece := by
  obtain ⟨stretch, hs, rfl⟩ := List.mem_map.mp h
  exact fun hm => Cut.not_mem_of_mem_splitOn hs ((Text.dropEndWhile_prefix _ stretch).mem hm)

theorem getLast?_of_mem_pieces {comment piece : Text} (h : piece ∈ pieces comment) :
    piece.getLast? ≠ some '\r' := by
  obtain ⟨stretch, _, rfl⟩ := List.mem_map.mp h
  intro hr
  have hstop := Text.getLast?_dropEndWhile hr
  simp at hstop

theorem length_pieces (comment : Text) : (pieces comment).length = comment.count '\n' + 1 := by
  rw [pieces, List.length_map, Cut.length_splitOn]

theorem annotate_eq_ok_iff {lines result : List Text} {r : Request} :
    annotate lines r = .ok result ↔ ∃ comment,
      Comment.format r.fileType r.kind r.note = .ok comment ∧
        insert lines r.line comment = .ok result := by
  cases hc : Comment.format r.fileType r.kind r.note with
  | error e => simp [annotate, hc, bind, Except.bind]
  | ok comment => simp [annotate, hc, bind, Except.bind]

theorem splice_append (upper lower others : List Text) :
    splice (upper ++ lower) upper.length others = upper ++ others ++ lower := by
  rw [splice, List.take_left, List.drop_left]

/-- A line that others were put before is still there, and so is the last line. -/
theorem getLast?_splice {lines : List Text} {n : Nat} (hn : n < lines.length)
    (others : List Text) : (splice lines n others).getLast? = lines.getLast? := by
  have hstop : ¬ lines.length ≤ n := by omega
  have hne : lines ≠ [] := List.length_pos_iff.mp (by omega)
  rw [splice, List.getLast?_append, List.getLast?_drop, if_neg hstop,
    List.getLast?_eq_some_getLast hne]
  rfl

theorem mem_splice {lines others : List Text} {n : Nat} {line : Text}
    (h : line ∈ splice lines n others) : line ∈ lines ∨ line ∈ others := by
  rcases List.mem_append.mp h with h | h
  · rcases List.mem_append.mp h with h | h
    · exact Or.inl (List.mem_of_mem_take h)
    · exact Or.inr h
  · exact Or.inl (List.mem_of_mem_drop h)

end Insertion

namespace SourceText

theorem annotate_eq_ok_iff {s t : SourceText} {r : Request} :
    s.annotate r = .ok t ↔
      ∃ lines, Insertion.annotate s.lines r = .ok lines ∧ t = s.withLines lines := by
  cases ha : Insertion.annotate s.lines r with
  | error e => simp [annotate, ha, Except.map]
  | ok lines => simp [annotate, ha, Except.map, eq_comm]

theorem lineStart_written {lines : List Text} (h : ∀ line ∈ lines, '\n' ∉ line) (e : LineEnding)
    (after : Text) :
    Text.lineStart lines.length (lines.flatMap (· ++ e.text) ++ after) =
      (lines.flatMap (· ++ e.text)).length := by
  induction lines with
  | nil => exact Text.lineStart_zero _
  | cons line lines ih =>
    have hline := e.feed_not_mem_append_returns (h line (by simp))
    have hone : (line :: lines).flatMap (· ++ e.text) ++ after =
        (line ++ e.returns) ++ '\n' :: (lines.flatMap (· ++ e.text) ++ after) := by
      simp [LineEnding.text_eq]
    rw [hone, List.length_cons, Text.lineStart_append hline, ih (fun l hl => h l (by simp [hl]))]
    simp [LineEnding.text_eq]
    omega

/-- The text of a source up to one of its lines and from there on. -/
theorem render_eq_take_drop (s : SourceText) {n : Nat} (hn : n < s.lines.length) :
    s.render = (s.lines.take n).flatMap (· ++ s.ending.text) ++
      (s.withLines (s.lines.drop n)).render := by
  have hne : s.lines.drop n ≠ [] := by simpa using hn
  have h := render_append s.ending s.closed (s.lines.take n) hne
  rwa [List.take_append_drop] at h

theorem render_splice {s : SourceText} (hfree : ∀ line ∈ s.lines, '\n' ∉ line) {n : Nat}
    (hn : n < s.lines.length) (others : List Text) :
    (s.withLines (Insertion.splice s.lines n others)).render =
      s.render.take (Text.lineStart n s.render) ++ others.flatMap (· ++ s.ending.text) ++
        s.render.drop (Text.lineStart n s.render) := by
  have hne : s.lines.drop n ≠ [] := by simpa using hn
  have hlen : (s.lines.take n).length = n := by simp; omega
  have hstart : Text.lineStart n s.render =
      ((s.lines.take n).flatMap (· ++ s.ending.text)).length := by
    have hfirst : ∀ line ∈ s.lines.take n, '\n' ∉ line :=
      fun line hl => hfree line (List.mem_of_mem_take hl)
    have h := lineStart_written hfirst s.ending (s.withLines (s.lines.drop n)).render
    rwa [hlen, ← render_eq_take_drop s hn] at h
  have hwritten := render_append s.ending s.closed (s.lines.take n ++ others) hne
  rw [hstart]
  rw [render_eq_take_drop s hn, List.take_left, List.drop_left, Insertion.splice]
  exact hwritten.trans (by rw [List.flatMap_append]; rfl)

/-- A comment before an existing line brings no break of its own into a line, and it leaves the last
line alone, on which the reading of an open text depends. -/
theorem Canonical.insert {s : SourceText} (h : Canonical s) {line : Nat} {comment : Text}
    {lines : List Text} (hi : Insertion.insert s.lines line comment = .ok lines) :
    Canonical (s.withLines lines) := by
  obtain ⟨hfirst, hlast, rfl⟩ := Insertion.insert_eq_ok_iff.mp hi
  have hlen := Insertion.length_splice s.lines (by omega : line - 1 ≤ s.lines.length)
    (Insertion.pieces comment)
  refine ⟨?_, ?_, ?_, ?_, ?_⟩
  · intro x hx
    rcases Insertion.mem_splice hx with hx | hx
    · exact h.unbroken x hx
    · exact Insertion.feed_not_mem_pieces hx
  · intro hnil
    have hzero := congrArg List.length hnil
    simp only [withLines, hlen, List.length_nil] at hzero
    omega
  · intro he x hx
    rcases Insertion.mem_splice hx with hx | hx
    · exact h.bare he x hx
    · exact Insertion.getLast?_of_mem_pieces hx
  · intro he
    rcases h.has_break he with hclosed | htwo
    · exact Or.inl hclosed
    · right
      simp only [withLines, hlen]
      omega
  · intro hopen last hl
    have hsame : last ∈ s.lines.getLast? := by
      rw [← Insertion.getLast?_splice (by omega : line - 1 < s.lines.length)
        (Insertion.pieces comment)]
      exact hl
    exact h.open_last hopen last hsame

theorem annotate_eq_ok {s : SourceText} {r : Request} {comment : Text}
    (hc : Comment.format r.fileType r.kind r.note = .ok comment) (hfirst : 0 < r.line)
    (hlast : r.line ≤ s.lines.length) :
    s.annotate r =
      .ok (s.withLines (Insertion.splice s.lines (r.line - 1) (Insertion.pieces comment))) := by
  have hi : Insertion.annotate s.lines r =
      .ok (Insertion.splice s.lines (r.line - 1) (Insertion.pieces comment)) :=
    Insertion.annotate_eq_ok_iff.mpr
      ⟨comment, hc, Insertion.insert_eq_ok_iff.mpr ⟨hfirst, hlast, rfl⟩⟩
  rw [annotate, hi]
  rfl

theorem format_of_ofToken? {given : Text} {f : FileType} (h : FileType.ofToken? given = some f)
    (kind : CommentKind) (note : Text) :
    Comment.format given kind note = .ok (Comment.ofFamily f.family kind note) := by
  simp [Comment.format, FileType.require, h, bind, Except.bind, pure, Except.pure]

/-- A note in a known type on an existing line adds the lines of its comment before that line, each
with a break, and nothing else; where the text comes back unchanged anyway, to the text itself. -/
theorem render_annotate {content : Text} {r : Request} {f : FileType}
    (hf : FileType.ofToken? r.fileType = some f) (hfirst : 0 < r.line)
    (hlast : r.line ≤ (parse content).lines.length) :
    let s := parse content
    let start := Text.lineStart (r.line - 1) s.render
    ∃ comment t, Comment.format r.fileType r.kind r.note = .ok comment ∧ s.annotate r = .ok t ∧
      let block := (Insertion.pieces comment).flatMap (· ++ s.ending.text)
      t.render = s.render.take start ++ block ++ s.render.drop start ∧
        (Uniform content → content.getLast? ≠ some '\r' →
          t.render = content.take start ++ block ++ content.drop start) := by
  intro s start
  have hc := format_of_ofToken? hf r.kind r.note
  have hsplice := render_splice (feed_not_mem_parse content) (by omega : r.line - 1 < _)
    (Insertion.pieces (Comment.ofFamily f.family r.kind r.note))
  refine ⟨_, _, hc, annotate_eq_ok hc hfirst hlast, hsplice, ?_⟩
  intro hu hr
  have hsame : s.render = content := render_parse_of_uniform hu hr
  rw [← hsame]
  exact hsplice

/-- A block comment goes before a last line without a break, which then still has none. -/
theorem render_annotate_open_last :
    let content := "a\r\nb".toList
    let r : Request := ⟨"py".toList, .multiLine, "x\r\ny".toList, 2⟩
    FileType.ofToken? r.fileType = some .python ∧ r.line = (parse content).lines.length ∧
      ∃ t, (parse content).annotate r = .ok t ∧
        t.render = "a\r\n\"\"\"\r\nx\r\ny\r\n\"\"\"\r\nb".toList := by
  intro content r
  have hf : FileType.ofToken? r.fileType = some .python := by decide
  have hline : r.line = (parse content).lines.length := by decide
  obtain ⟨comment, t, hc, ht, hrender, _⟩ := render_annotate hf (by decide) (Nat.le_of_eq hline)
  have hcomment : comment = "\"\"\"\nx\r\ny\n\"\"\"".toList := by
    cases hc
    decide
  subst hcomment
  exact ⟨hf, hline, t, ht, hrender.trans (by decide)⟩

end SourceText

end Marginalia
