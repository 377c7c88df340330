import Marginalia.Proofs.Report.Classes
import Marginalia.Proofs.SourceText.Breaks
import Marginalia.Proofs.Text.Columns
/-!
Reading a printed report. A sighting has a row of its own, in which the text of the line stands
between the marker and the number; whatever that text is, the marker is read off the front of the
row and the number off its end. So reports that are printed alike say the same.
-/

namespace Marginalia

theorem Text.trim_sublist (t : Text) : (trim t).Sublist t := by
  have hfront : trim t <+: t.dropWhile isBlank := dropEndWhile_prefix isBlank _
  exact hfront.sublist.trans (List.dropWhile_suffix isBlank).sublist

theorem FileType.ofToken?_shownToken (f : Option FileType) : ofToken? (shownToken f) = f := by
  cases f with
  | none => rfl
  | some f => exact ofToken?_token f

theorem FileType.shownToken_injective : Function.Injective shownToken :=
  Function.LeftInverse.injective ofToken?_shownToken

theorem FileType.feed_not_mem_shownToken (f : Option FileType) : '\n' ∉ shownToken f := by
  cases f with
  | none => simp [shownToken]
  | some f => cases f <;> simp [shownToken, token]

/-- A marker is read off the front of a text, although one may be in the rest of it as well. -/
theorem Marker.word_append_inj {m k : Marker} {s t : Text} :
    m.word ++ s = k.word ++ t ↔ m = k ∧ s = t := by
  cases m with
  | todo => cases k <;> simp [word]
  | fixme => cases k <;> simp [word]

/-- What a report shows of a sighting: the marker, the number of the line, and the line without the
blanks around it. -/
def Sighting.shown (x : Sighting) : Marker × Nat × Text := (x.marker, x.line, Text.trim x.text)

namespace Report

/-- A row that shows a sighting, without its line feed. -/
def rowOf : Marker × Nat × Text → Text
  | (m, n, t) => m.word ++ (": ".toList ++ (t ++ " (Line ".toList ++ Text.decimal n ++ [')']))

theorem rowOf_injective : Function.Injective rowOf := by
  intro ⟨m, n, t⟩ ⟨k, i, u⟩ h
  obtain ⟨rfl, hrest⟩ := Marker.word_append_inj.mp h
  have hclosed := List.append_cancel_left hrest
  have hnumbered := List.append_cancel_right hclosed
  have hopen : ∀ s : Text, ∀ c ∈ (s ++ " (Line ".toList).getLast?, c.isDigit = false := by
    intro s c hc
    obtain rfl : ' ' = c := by simpa using hc
    rfl
  obtain ⟨hfront, rfl⟩ := (Text.append_decimal_inj (hopen t) (hopen u)).mp hnumbered
  obtain rfl := List.append_cancel_right hfront
  rfl

theorem feed_not_mem_rowOf {m : Marker} {n : Nat} {t : Text} (h : '\n' ∉ t) :
    '\n' ∉ rowOf (m, n, t) := by
  have hword : '\n' ∉ m.word := by cases m <;> simp [Marker.word]
  have hnumber : '\n' ∉ Text.decimal n := Text.not_mem_decimal rfl n
  simp [rowOf, h, hword, hnumber]

/-- The rows of the heading, the empty one included. -/
def headingRows (r : Report) : List Text :=
  ["File Type: ".toList ++ FileType.shownToken r.fileType,
    "Lines of Code: ".toList ++ Text.decimal r.counts.total,
    "Blank Lines: ".toList ++ Text.decimal r.counts.blank,
    "Comment Lines: ".toList ++ Text.decimal r.counts.comment,
    "TODOs: ".toList ++ Text.decimal r.counts.todo,
    "FIXMEs: ".toList ++ Text.decimal r.counts.fixme,
    [],
    "Comment Report:".toList]

theorem length_headingRows (r : Report) : r.headingRows.length = 8 := rfl

theorem headingRows_inj {r s : Report} :
    r.headingRows = s.headingRows ↔ r.fileType = s.fileType ∧ r.counts = s.counts := by
  constructor
  · intro h
    simp only [headingRows, List.cons.injEq, List.append_cancel_left_eq] at h
    obtain ⟨htype, htotal, hblank, hcomment, htodo, hfixme, _⟩ := h
    refine ⟨FileType.shownToken_injective htype, ?_⟩
    calc r.counts
        = ⟨r.counts.total, r.counts.blank, r.counts.comment, r.counts.todo, r.counts.fixme⟩ := rfl
      _ = s.counts := by
        rw [Text.decimal_injective htotal, Text.decimal_injective hblank,
          Text.decimal_injective hcomment, Text.decimal_injective htodo,
          Text.decimal_injective hfixme]
  · intro h
    rw [headingRows, h.1, h.2]
    rfl

theorem feed_not_mem_headingRows (r : Report) : ∀ row ∈ r.headingRows, '\n' ∉ row := by
  have hnumber : ∀ n, '\n' ∉ Text.decimal n := Text.not_mem_decimal rfl
  simp [headingRows, hnumber, FileType.feed_not_mem_shownToken]

def rows (r : Report) : List Text := r.headingRows ++ r.sightings.map (rowOf ·.shown)

theorem render_eq_rows (r : Report) : r.render = r.rows.flatMap (· ++ ['\n']) := by
  have hheading : r.heading = r.headingRows.flatMap (· ++ ['\n']) := by
    simp [heading, headingRows, Text.line]
  have hsightings : r.sightings.flatMap sightingText =
      (r.sightings.map (rowOf ·.shown)).flatMap (· ++ ['\n']) := by
    rw [List.flatMap_map]
    apply List.flatMap_congr
    intro x _
    simp [sightingText, rowOf, Sighting.shown, Text.line]
  rw [render, rows, List.flatMap_append, hheading, hsightings]

/-- The rows of a report are the lines of what is printed, as long as no line feed is quoted. -/
def printed (r : Report) (h : ∀ x ∈ r.sightings, '\n' ∉ x.text) : Cut '\n' where
  ended := r.rows
  rest := []
  ended_free := by
    intro row hrow
    rcases List.mem_append.mp hrow with hrow | hrow
    · exact r.feed_not_mem_headingRows row hrow
    · obtain ⟨x, hx, rfl⟩ := List.mem_map.mp hrow
      exact feed_not_mem_rowOf fun hfeed => h x hx ((Text.trim_sublist x.text).mem hfeed)
  rest_free := List.not_mem_nil

theorem join_printed (r : Report) (h : ∀ x ∈ r.sightings, '\n' ∉ x.text) :
    (r.printed h).join = r.render := by
  rw [render_eq_rows]
  exact List.append_nil _

theorem render_inj_of_free {r s : Report} (hr : ∀ x ∈ r.sightings, '\n' ∉ x.text)
    (hs : ∀ x ∈ s.sightings, '\n' ∉ x.text) :
    r.render = s.render ↔
      (r.fileType = s.fileType ∧ r.counts = s.counts) ∧
        r.sightings.map Sighting.shown = s.sightings.map Sighting.shown := by
  have hrows : r.render = s.render ↔ r.rows = s.rows := by
    rw [← join_printed r hr, ← join_printed s hs, Cut.join_inj, Cut.ext_iff]
    exact and_iff_left rfl
  have hsightings : ∀ xs : List Sighting,
      xs.map (rowOf ·.shown) = (xs.map Sighting.shown).map rowOf := by
    intro xs
    rw [List.map_map]
    rfl
  rw [hrows, rows, rows, hsightings, hsightings, ← headingRows_inj,
    ← (List.map_injective_iff.mpr rowOf_injective).eq_iff]
  constructor
  · intro h
    exact List.append_inj h rfl
  · intro h
    rw [h.1, h.2]

theorem length_lines_render {r : Report} (h : ∀ x ∈ r.sightings, '\n' ∉ x.text) :
    (SourceText.parse r.render).lines.length = 8 + r.sightings.length := by
  have hrows : (r.printed h).stretches = r.rows := List.append_nil _
  rw [← join_printed r h, SourceText.parse_join, List.length_map, hrows, rows, List.length_append,
    List.length_map, length_headingRows]

section OfToken

variable (token : Text) {lines : List Text}

theorem text_mem_of_sighting {x : Sighting} (h : x ∈ (ofToken token lines).sightings) :
    x.text ∈ lines := by
  have hrule : [] ∉ (CommentRule.ofToken token).openings := CommentRule.nil_not_mem_openings _
  exact List.mem_of_getElem? ((CommentRule.mem_told_iff hrule).mp h).2.1

/-- Every sighting is counted, and for one of the two markers. -/
theorem length_sightings (lines : List Text) :
    let r := ofToken token lines
    r.sightings.length = r.counts.todo + r.counts.fixme := by
  intro r
  have hcount : ∀ m, r.counts.marked m = r.sightings.countP (·.marker = m) :=
    (CommentRule.ofToken token).marked_countLines 1 lines
  have hother : r.sightings.countP (fun x => ¬ decide (x.marker = .todo) = true) =
      r.sightings.countP (·.marker = .fixme) := by
    apply List.countP_congr
    intro x _
    cases x.marker <;> simp
  have hsplit := r.sightings.length_eq_countP_add_countP (·.marker = .todo)
  rw [hother, ← hcount, ← hcount] at hsplit
  exact hsplit

end OfToken

/-- Two printed reports are the same just if the reports say the same, whatever the lines are that
they quote: of the same type of file the same numbers, and the same markers in the same lines with
the same text. Each sighting is a line more than the eight of the heading. -/
theorem render_unambiguous (token other : Text) {lines others : List Text}
    (hlines : ∀ line ∈ lines, '\n' ∉ line) (hothers : ∀ line ∈ others, '\n' ∉ line) :
    let r := ofToken token lines
    let s := ofToken other others
    (r.render = s.render ↔
      (r.fileType = s.fileType ∧ r.counts = s.counts) ∧
        r.sightings.map Sighting.shown = s.sightings.map Sighting.shown) ∧
    (SourceText.parse r.render).lines.length = 8 + r.counts.todo + r.counts.fixme := by
  intro r s
  have hr : ∀ x ∈ r.sightings, '\n' ∉ x.text :=
    fun x hx => hlines x.text (text_mem_of_sighting token hx)
  have hs : ∀ x ∈ s.sightings, '\n' ∉ x.text :=
    fun x hx => hothers x.text (text_mem_of_sighting other hx)
  refine ⟨render_inj_of_free hr hs, ?_⟩
  rw [length_lines_render hr, length_sightings token lines, Nat.add_assoc]

/-- A line that reads like a row of a report, and with another indentation the same. -/
theorem render_unambiguous_lookalike :
    let lines := ["x = 1".toList, "# TODO: x (Line 3)".toList]
    let others := ["y = 2".toList, "\t# TODO: x (Line 3) ".toList]
    (∀ line ∈ lines, '\n' ∉ line) ∧ (∀ line ∈ others, '\n' ∉ line) ∧
      (ofToken "py".toList lines).render = (ofToken ".Python".toList others).render ∧
      (SourceText.parse (ofToken "py".toList lines).render).lines.length = 9 := by
  intro lines others
  have hlines : ∀ line ∈ lines, '\n' ∉ line := by decide
  have hothers : ∀ line ∈ others, '\n' ∉ line := by decide
  obtain ⟨hrender, hlength⟩ := render_unambiguous "py".toList ".Python".toList hlines hothers
  have hcounts : (ofToken "py".toList lines).counts = ⟨2, 0, 1, 1, 0⟩ := by decide
  have htypes : (ofToken "py".toList lines).fileType =
      (ofToken ".Python".toList others).fileType := by
    decide
  have hsame : (ofToken "py".toList lines).counts = (ofToken ".Python".toList others).counts := by
    decide
  have hshown : (ofToken "py".toList lines).sightings.map Sighting.shown =
      (ofToken ".Python".toList others).sightings.map Sighting.shown := by
    decide
  rw [hcounts] at hlength
  exact ⟨hlines, hothers, hrender.mpr ⟨⟨htypes, hsame⟩, hshown⟩, hlength⟩

end Report

end Marginalia
