import Marginalia.Proofs.LineReader.Numbering
/-!
Adding a note to a file, and adding it to the lines that were read from the file. It makes no
difference which is done, except where the file ends in an open line that is nothing but a return:
that line is kept as an empty one, and an empty line that no break ends cannot be read again.
-/

namespace Marginalia

theorem LineEnding.bare_append_returns (e : LineEnding) (line : Text) :
    Text.bare (line ++ e.returns) = Text.bare line := by
  cases e with
  | lf => simp [LineEnding.returns]
  | crlf => exact Text.bare_concat line

namespace Insertion

theorem map_bare_pieces (comment : Text) : (pieces comment).map Text.bare = pieces comment := by
  have hbare : ∀ piece ∈ pieces comment, Text.bare piece = piece :=
    fun piece hp => Text.bare_of_getLast? (getLast?_of_mem_pieces hp)
  rw [List.map_congr_left hbare, List.map_id']

theorem map_bare_splice (lines : List Text) (n : Nat) (comment : Text) :
    (splice lines n (pieces comment)).map Text.bare =
      splice (lines.map Text.bare) n (pieces comment) := by
  simp only [splice, List.map_append, List.map_take, List.map_drop, map_bare_pieces]

/-- Only the number of lines has a say in whether a note can be added. -/
theorem annotate_map_bare {lines result : List Text} {r : Request}
    (h : annotate lines r = .ok result) :
    annotate (lines.map Text.bare) r = .ok (result.map Text.bare) := by
  obtain ⟨comment, hc, hi⟩ := annotate_eq_ok_iff.mp h
  obtain ⟨hfirst, hlast, rfl⟩ := insert_eq_ok_iff.mp hi
  apply annotate_eq_ok_iff.mpr
  refine ⟨comment, hc, insert_eq_ok_iff.mpr ⟨hfirst, ?_, map_bare_splice _ _ _⟩⟩
  rwa [List.length_map]

end Insertion

namespace SourceText

theorem bare_lines_written {lines : List Text} {e : LineEnding} {rest : Text}
    (hlines : ∀ line ∈ lines, '\n' ∉ line) (hrest : '\n' ∉ rest) :
    (parse (lines.flatMap (· ++ e.text) ++ rest)).lines.map Text.bare =
      (lines ++ if rest = [] then [] else [rest]).map Text.bare := by
  have hread : ∀ line ∈ lines, Text.bare (dropReturn (line ++ e.returns)) = Text.bare line := by
    intro line _
    rw [Text.bare_dropReturn, e.bare_append_returns]
  have hstretches : (written lines e rest hlines hrest).stretches =
      lines.map (· ++ e.returns) ++ if rest = [] then [] else [rest] :=
    rfl
  rw [← join_written hlines hrest, parse_join, hstretches]
  simp only [List.map_append, List.map_map, Function.comp_def]
  rw [List.map_congr_left hread]
  by_cases hr : rest = []
  · simp [hr]
  · simp [hr, Text.bare_dropReturn]

/-- A source whose last line would be lost if it were written and read again. -/
def EndsEmpty (s : SourceText) : Prop := s.closed = false ∧ s.lines.getLast? = some []

/-- Nothing but the returns at the ends of lines changes between writing and reading, unless the
last line is lost. -/
theorem bare_lines_parse_render_iff {s : SourceText} (hfree : ∀ line ∈ s.lines, '\n' ∉ line) :
    (parse s.render).lines.map Text.bare = s.lines.map Text.bare ↔ ¬ s.EndsEmpty := by
  obtain ⟨lines, e, closed⟩ := s
  cases closed with
  | true =>
    have hread := bare_lines_written (e := e) hfree List.not_mem_nil
    rw [List.append_nil, if_pos rfl, List.append_nil] at hread
    rw [render_closed]
    exact iff_of_true hread (fun h => by cases h.1)
  | false =>
    rcases List.eq_nil_or_concat' lines with rfl | ⟨others, last, rfl⟩
    · exact iff_of_true rfl (fun h => by cases h.2)
    · have hothers : ∀ line ∈ others, '\n' ∉ line :=
        fun line hl => hfree line (List.mem_append_left _ hl)
      rw [render_open_concat, bare_lines_written hothers (hfree last (by simp))]
      by_cases hl : last = []
      · simp [EndsEmpty, hl]
      · simp [EndsEmpty, hl]

theorem rest_eq_return_iff (c : Cut '\n') :
    c.rest = ['\r'] ↔ c.join = ['\r'] ∨ ['\n', '\r'] <:+ c.join := by
  constructor
  · intro hr
    rcases List.eq_nil_or_concat' c.ended with he | ⟨before, x, he⟩
    · exact Or.inl (by simp [Cut.join, he, hr])
    · exact Or.inr ⟨before.flatMap (· ++ ['\n']) ++ x, by simp [Cut.join, he, hr]⟩
  · have hlone : '\n' ∉ ['\r'] := by decide
    rintro (hj | ⟨before, hj⟩)
    · have hc : c = ⟨[], ['\r'], by simp, hlone⟩ := Cut.join_inj.mp (hj.trans rfl)
      rw [hc]
    · have hc : c = (Cut.of '\n' before).glue ⟨[], ['\r'], by simp, hlone⟩ := by
        apply Cut.join_inj.mp
        rw [Cut.join_glue, Cut.join_of, ← hj]
        rfl
      rw [hc]
      rfl

theorem dropReturn_eq_nil_iff {line : Text} (h : line ≠ []) :
    dropReturn line = [] ↔ line = ['\r'] := by
  by_cases hr : line.getLast? = some '\r'
  · obtain ⟨before, rfl⟩ := List.getLast?_eq_some_iff.mp hr
    simp [dropReturn_concat]
  · rw [dropReturn_of_getLast? hr]
    constructor
    · exact fun hnil => absurd hnil h
    · intro he
      rw [he] at hr
      exact absurd rfl hr

/-- Of the sources that are read, just those of texts that end in a lone return end so. -/
theorem endsEmpty_parse_iff {content : Text} :
    (parse content).EndsEmpty ↔ content = ['\r'] ∨ ['\n', '\r'] <:+ content := by
  obtain ⟨c, rfl⟩ := Cut.exists_join '\n' content
  rw [← rest_eq_return_iff, parse_join, EndsEmpty]
  by_cases hr : c.rest = []
  · have hne : c.rest ≠ ['\r'] := by simp [hr]
    by_cases he : c.ended = []
    · simp [Cut.stretches, hr, he]
    · simp [hr, he]
  · simp [Cut.stretches, hr, dropReturn_eq_nil_iff hr]

end SourceText

namespace LineReader
open SourceText

/-- A note that the source of a file takes can be added to the lines read from the file too, and it
leaves the lines that are read from the file once the source is written back: always, but for a text
that ends in an open line of a single return. -/
theorem linesOf_annotate_iff {bytes : Bytes} {content : Text} {r : Request} {t : SourceText}
    (hbytes : Utf8.decode? bytes = some content) (ht : (parse content).annotate r = .ok t) :
    ∃ lines, Insertion.annotate (linesOf bytes) r = .ok lines ∧
      (linesOf (Utf8.encode t.render) = lines ↔
        content ≠ ['\r'] ∧ ¬ ['\n', '\r'] <:+ content) := by
  obtain ⟨lines, ha, rfl⟩ := annotate_eq_ok_iff.mp ht
  have hread : linesOf bytes = (parse content).lines.map Text.bare := by
    rw [linesOf_eq_parse, Utf8.decodeLossy_of_decode? hbytes]
  refine ⟨lines.map Text.bare, hread ▸ Insertion.annotate_map_bare ha, ?_⟩
  obtain ⟨comment, _, hi⟩ := Insertion.annotate_eq_ok_iff.mp ha
  obtain ⟨hfirst, hlast, rfl⟩ := Insertion.insert_eq_ok_iff.mp hi
  have hfree : ∀ line ∈ Insertion.splice (parse content).lines (r.line - 1)
      (Insertion.pieces comment), '\n' ∉ line := by
    intro line hline
    rcases Insertion.mem_splice hline with hl | hl
    · exact feed_not_mem_parse content line hl
    · exact Insertion.feed_not_mem_pieces hl
  have hsame := Insertion.getLast?_splice (by omega : r.line - 1 < (parse content).lines.length)
    (Insertion.pieces comment)
  have hempty : ((parse content).withLines (Insertion.splice (parse content).lines (r.line - 1)
      (Insertion.pieces comment))).EndsEmpty ↔ (parse content).EndsEmpty :=
    and_congr_right fun _ => by rw [← hsame, lines_withLines]
  rw [linesOf_eq_parse, Utf8.decodeLossy_encode, ← not_or, ← endsEmpty_parse_iff, ← hempty]
  exact bare_lines_parse_render_iff hfree

/-- Mixed breaks and lines that end in many returns do no harm, a lone return at the end does. -/
theorem linesOf_annotate_mixed_breaks :
    let r : Request := ⟨"py".toList, .todo, "x".toList, 2⟩
    (∃ lines, Insertion.annotate (linesOf (Utf8.encode "a\nb\r\r\nc\r\r".toList)) r = .ok lines ∧
      linesOf (Utf8.encode "a\n# TODO: x\nb\r\nc\r".toList) = lines) ∧
    ∃ lines, Insertion.annotate (linesOf (Utf8.encode "a\n\r".toList)) r = .ok lines ∧
      linesOf (Utf8.encode "a\n# TODO: x\n".toList) ≠ lines := by
  intro r
  have hkept : (parse "a\nb\r\r\nc\r\r".toList).annotate r =
      .ok ⟨["a", "# TODO: x", "b\r", "c\r"].map String.toList, .lf, false⟩ := by rfl
  have hlost : (parse "a\n\r".toList).annotate r =
      .ok ⟨["a", "# TODO: x", ""].map String.toList, .lf, false⟩ := by rfl
  obtain ⟨kept, hk, hkeep⟩ := linesOf_annotate_iff (Utf8.decode?_encode _) hkept
  obtain ⟨lost, hl, hlose⟩ := linesOf_annotate_iff (Utf8.decode?_encode _) hlost
  exact ⟨⟨kept, hk, hkeep.mpr (by decide)⟩, lost, hl, fun he => (hlose.mp he).2 (by decide)⟩

end LineReader

end Marginalia
