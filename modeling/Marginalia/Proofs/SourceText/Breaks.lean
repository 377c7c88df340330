import Marginalia.Proofs.Text.Cut
import Marginalia.SourceText
/-!
Reading and writing a source, told of the stretches of its text. Each stretch gives up its own
return when it is read and takes the one of the first break when it is written.
-/

namespace Marginalia

/-- What an ending puts before the line feed. -/
def LineEnding.returns : LineEnding → Text
  | lf => []
  | crlf => ['\r']

theorem LineEnding.text_eq (e : LineEnding) : e.text = e.returns ++ ['\n'] := by
  cases e <;> rfl

theorem LineEnding.feed_not_mem_returns (e : LineEnding) : '\n' ∉ e.returns := by
  cases e <;> decide

theorem LineEnding.feed_not_mem_append_returns {line : Text} (h : '\n' ∉ line) (e : LineEnding) :
    '\n' ∉ line ++ e.returns := by
  intro hm
  rcases List.mem_append.mp hm with hm | hm
  · exact h hm
  · exact e.feed_not_mem_returns hm

namespace SourceText

theorem dropReturn_sublist (line : Text) : (dropReturn line).Sublist line := by
  unfold dropReturn
  split
  · exact List.dropLast_sublist line
  · exact List.Sublist.refl line

theorem dropReturn_of_getLast? {line : Text} (h : line.getLast? ≠ some '\r') :
    dropReturn line = line := by
  simp [dropReturn, h]

theorem dropReturn_concat (line : Text) : dropReturn (line ++ ['\r']) = line := by
  simp [dropReturn]

theorem dropReturn_eq_self_iff {line : Text} :
    dropReturn line = line ↔ line.getLast? ≠ some '\r' := by
  constructor
  · intro h hr
    obtain ⟨before, rfl⟩ := List.getLast?_eq_some_iff.mp hr
    rw [dropReturn_concat] at h
    simpa using congrArg List.length h
  · exact dropReturn_of_getLast?

/-- Only the right ending gives a stretch its return back. -/
theorem dropReturn_append_returns_eq_iff {line : Text} {e : LineEnding} :
    dropReturn line ++ e.returns = line ↔ (line.getLast? = some '\r' ↔ e = .crlf) := by
  by_cases hr : line.getLast? = some '\r'
  · obtain ⟨before, rfl⟩ := List.getLast?_eq_some_iff.mp hr
    rw [dropReturn_concat]
    cases e <;> simp [LineEnding.returns]
  · rw [dropReturn_of_getLast? hr]
    cases e <;> simp [LineEnding.returns, hr]

theorem dropReturn_append_returns {line : Text} {e : LineEnding}
    (h : e = .lf → line.getLast? ≠ some '\r') : dropReturn (line ++ e.returns) = line := by
  cases e with
  | lf => simpa [LineEnding.returns] using dropReturn_of_getLast? (h rfl)
  | crlf => exact dropReturn_concat line

/-- The ending that the first stretch shows, if a break ends it at all. -/
def cutEnding (c : Cut '\n') : LineEnding :=
  if c.ended.head?.bind List.getLast? = some '\r' then .crlf else .lf

theorem takeWhile_before_feed {first : Text} (h : '\n' ∉ first) (after : Text) :
    (first ++ '\n' :: after).takeWhile (· ≠ '\n') = first := by
  have hfirst : ∀ v ∈ first, decide (v ≠ '\n') = true := by
    intro v hv
    exact decide_eq_true (fun e => h (e ▸ hv))
  rw [List.takeWhile_append_of_pos hfirst, List.takeWhile_cons_of_neg (by simp), List.append_nil]

theorem endingOf_join (c : Cut '\n') : endingOf c.join = cutEnding c := by
  obtain ⟨ended, rest, hended, hrest⟩ := c
  cases ended with
  | nil => simp [endingOf, cutEnding, Cut.join, hrest]
  | cons first others =>
    have hjoin : (⟨first :: others, rest, hended, hrest⟩ : Cut '\n').join =
        first ++ '\n' :: (others.flatMap (· ++ ['\n']) ++ rest) := by
      simp [Cut.join]
    rw [endingOf, hjoin, takeWhile_before_feed (hended first (by simp))]
    by_cases hr : first.getLast? = some '\r'
    · simp [cutEnding, hr]
    · simp [cutEnding, hr]

theorem isClosed_join (c : Cut '\n') : isClosed c.join = decide (c.rest = [] ∧ c.ended ≠ []) := by
  rw [isClosed, Bool.eq_iff_iff, beq_iff_eq, decide_eq_true_iff]
  exact c.getLast?_join_eq_break

theorem linesOf_join (c : Cut '\n') : linesOf c.join = c.stretches.map dropReturn := by
  rw [linesOf, isClosed_join, Cut.splitOn_join]
  by_cases hr : c.rest = []
  · by_cases he : c.ended = []
    · simp [Cut.join, Cut.stretches, hr, he]
    · simp [Cut.join_eq_nil_iff, Cut.stretches, hr, he]
  · simp [Cut.join, Cut.stretches, hr]

theorem parse_join (c : Cut '\n') :
    parse c.join =
      ⟨c.stretches.map dropReturn, cutEnding c, decide (c.rest = [] ∧ c.ended ≠ [])⟩ := by
  rw [parse, linesOf_join, endingOf_join, isClosed_join]

theorem feed_not_mem_parse (content : Text) : ∀ line ∈ (parse content).lines, '\n' ∉ line := by
  intro line hline
  obtain ⟨c, rfl⟩ := Cut.exists_join '\n' content
  rw [parse_join] at hline
  obtain ⟨x, hx, rfl⟩ := List.mem_map.mp hline
  exact fun hm => c.stretches_free x hx ((dropReturn_sublist x).mem hm)

/-- Lines that others follow are each written with a break. -/
theorem render_append (e : LineEnding) (closed : Bool) (first : List Text) {second : List Text}
    (h : second ≠ []) :
    render ⟨first ++ second, e, closed⟩ =
      first.flatMap (· ++ e.text) ++ render ⟨second, e, closed⟩ := by
  rcases List.eq_nil_or_concat' second with rfl | ⟨others, last, rfl⟩
  · contradiction
  · rw [render, render, ← List.append_assoc first, intercalate_concat, intercalate_concat]
    simp

theorem render_closed (lines : List Text) (e : LineEnding) :
    render ⟨lines, e, true⟩ = lines.flatMap (· ++ e.text) := by
  rcases List.eq_nil_or_concat' lines with rfl | ⟨others, last, rfl⟩
  · simp [render]
  · rw [render_append e true others (by simp)]
    simp [render]

theorem render_open_concat (others : List Text) (last : Text) (e : LineEnding) :
    render ⟨others ++ [last], e, false⟩ = others.flatMap (· ++ e.text) ++ last := by
  rw [render_append e false others (by simp)]
  simp [render]

/-- The cut of lines that are each written with the same ending, and of what follows them. -/
def written (lines : List Text) (e : LineEnding) (rest : Text)
    (hlines : ∀ line ∈ lines, '\n' ∉ line) (hrest : '\n' ∉ rest) : Cut '\n' where
  ended := lines.map (· ++ e.returns)
  rest := rest
  ended_free := by
    intro x hx
    obtain ⟨line, hline, rfl⟩ := List.mem_map.mp hx
    exact e.feed_not_mem_append_returns (hlines line hline)
  rest_free := hrest

section Written

variable {lines : List Text} {e : LineEnding} {rest : Text}
  (hlines : ∀ line ∈ lines, '\n' ∉ line) (hrest : '\n' ∉ rest)

theorem join_written :
    (written lines e rest hlines hrest).join = lines.flatMap (· ++ e.text) ++ rest := by
  simp [written, Cut.join, List.flatMap_map, LineEnding.text_eq]

theorem map_dropReturn_written (hbare : e = .lf → ∀ line ∈ lines, line.getLast? ≠ some '\r')
    (hlast : rest.getLast? ≠ some '\r') :
    (written lines e rest hlines hrest).stretches.map dropReturn =
      lines ++ if rest = [] then [] else [rest] := by
  have hkeep : ∀ line ∈ lines, dropReturn (line ++ e.returns) = line :=
    fun line hline => dropReturn_append_returns (fun he => hbare he line hline)
  have hended : (lines.map (· ++ e.returns)).map dropReturn = lines := by
    rw [List.map_map]
    exact (List.map_congr_left hkeep).trans (List.map_id' _)
  have hstretches : (written lines e rest hlines hrest).stretches =
      lines.map (· ++ e.returns) ++ if rest = [] then [] else [rest] :=
    rfl
  rw [hstretches, List.map_append, hended]
  by_cases hr : rest = []
  · simp [hr]
  · simp [hr, dropReturn_of_getLast? hlast]

theorem cutEnding_written (hbare : e = .lf → ∀ line ∈ lines, line.getLast? ≠ some '\r') :
    cutEnding (written lines e rest hlines hrest) = if lines = [] then .lf else e := by
  cases lines with
  | nil => simp [written, cutEnding]
  | cons first others =>
    cases e with
    | lf =>
      have hf := hbare rfl first (by simp)
      simp [written, cutEnding, LineEnding.returns, hf]
    | crlf => simp [written, cutEnding, LineEnding.returns]

end Written

/-- What is read from lines that are each written with the same ending, and from what follows. -/
theorem parse_written {lines : List Text} {e : LineEnding} {rest : Text}
    (hlines : ∀ line ∈ lines, '\n' ∉ line) (hrest : '\n' ∉ rest)
    (hbare : e = .lf → ∀ line ∈ lines, line.getLast? ≠ some '\r')
    (hlast : rest.getLast? ≠ some '\r') :
    parse (lines.flatMap (· ++ e.text) ++ rest) =
      ⟨lines ++ if rest = [] then [] else [rest], if lines = [] then .lf else e,
        decide (rest = [] ∧ lines ≠ [])⟩ := by
  rw [← join_written hlines hrest, parse_join, map_dropReturn_written hlines hrest hbare hlast,
    cutEnding_written hlines hrest hbare]
  simp [written]

/-- How a cut text is cut once it has been read and written out again. -/
def resaved (c : Cut '\n') : Cut '\n' :=
  written (c.ended.map dropReturn) (cutEnding c) (dropReturn c.rest)
    (by
      intro line hline
      obtain ⟨x, hx, rfl⟩ := List.mem_map.mp hline
      exact fun hm => c.ended_free x hx ((dropReturn_sublist x).mem hm))
    (fun hm => c.rest_free ((dropReturn_sublist c.rest).mem hm))

theorem render_parse_join (c : Cut '\n') : (parse c.join).render = (resaved c).join := by
  rw [parse_join, resaved, join_written]
  by_cases hr : c.rest = []
  · by_cases he : c.ended = []
    · simp [Cut.stretches, hr, he, render, dropReturn]
    · have hs : c.stretches = c.ended := by simp [Cut.stretches, hr]
      rw [hs, decide_eq_true ⟨hr, he⟩, render_closed]
      simp [hr, dropReturn]
  · have hs : c.stretches = c.ended ++ [c.rest] := by simp [Cut.stretches, hr]
    rw [hs, decide_eq_false (fun h => hr h.1), List.map_append, List.map_singleton,
      render_open_concat]

end SourceText

end Marginalia
