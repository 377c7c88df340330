import Marginalia.Proofs.SourceText.Breaks
/-!
Which texts come back unchanged from being read in and written out, and which sources come back
unchanged from being written out and read in. Both sets are told exactly.
-/

namespace Marginalia.SourceText

/-- The line feeds of a text all follow a return, or none of them does. -/
def Uniform (content : Text) : Prop :=
  (∀ before after, content = before ++ '\n' :: after → before.getLast? = some '\r') ∨
  (∀ before after, content = before ++ '\n' :: after → before.getLast? ≠ some '\r')

/-- A cut text in which no stretch has gained or lost a return once it is written out again. -/
structure Steady (c : Cut '\n') : Prop where
  ended : ∀ x ∈ c.ended, x.getLast? = some '\r' ↔ cutEnding c = .crlf
  rest : c.rest.getLast? ≠ some '\r'

/-- Every stretch must stay as it is: what one gains, another cannot lose instead. -/
theorem resaved_eq_iff (c : Cut '\n') : resaved c = c ↔ Steady c := by
  rw [Cut.ext_iff]
  simp only [resaved, written, List.map_map]
  constructor
  · rintro ⟨he, hr⟩
    refine ⟨?_, dropReturn_eq_self_iff.mp hr⟩
    intro x hx
    have hmap : ∀ y ∈ c.ended, dropReturn y ++ (cutEnding c).returns = y := by
      apply List.map_inj_left.mp
      rw [List.map_id']
      exact he
    exact dropReturn_append_returns_eq_iff.mp (hmap x hx)
  · rintro ⟨he, hr⟩
    refine ⟨?_, dropReturn_eq_self_iff.mpr hr⟩
    have hmap : ∀ y ∈ c.ended, dropReturn y ++ (cutEnding c).returns = y :=
      fun y hy => dropReturn_append_returns_eq_iff.mpr (he y hy)
    exact (List.map_congr_left hmap).trans (List.map_id' _)

theorem cutEnding_of_cons {c : Cut '\n'} {first : Text} {others : List Text}
    (h : c.ended = first :: others) : cutEnding c = .crlf ↔ first.getLast? = some '\r' := by
  by_cases hf : first.getLast? = some '\r' <;> simp [cutEnding, h, hf]

theorem uniform_join_iff (c : Cut '\n') :
    Uniform c.join ↔ ∀ x ∈ c.ended, x.getLast? = some '\r' ↔ cutEnding c = .crlf := by
  have hall := c.forall_break_iff (by decide : '\r' ≠ '\n') True
  have hnone := c.forall_break_iff (by decide : '\r' ≠ '\n') False
  simp only [iff_true, iff_false] at hall hnone
  rw [Uniform, hall, hnone]
  cases he : c.ended with
  | nil => simp
  | cons first others =>
    rw [cutEnding_of_cons he]
    constructor
    · rintro (hall | hnone) x hx
      · exact iff_of_true (hall x hx) (hall first (by simp))
      · exact iff_of_false (hnone x hx) (hnone first (by simp))
    · intro h
      by_cases hf : first.getLast? = some '\r'
      · exact Or.inl (fun x hx => (h x hx).mpr hf)
      · exact Or.inr (fun x hx hr => hf ((h x hx).mp hr))

theorem steady_iff (c : Cut '\n') :
    Steady c ↔ Uniform c.join ∧ c.join.getLast? ≠ some '\r' := by
  rw [uniform_join_iff, ne_eq, Cut.getLast?_join_of_ne (by decide)]
  exact ⟨fun h => ⟨h.ended, h.rest⟩, fun h => ⟨h.1, h.2⟩⟩

theorem render_parse_join_eq_iff (c : Cut '\n') :
    (parse c.join).render = c.join ↔ Steady c := by
  rw [render_parse_join, Cut.join_inj, resaved_eq_iff]

theorem render_parse_of_uniform {content : Text} (hu : Uniform content)
    (hr : content.getLast? ≠ some '\r') : (parse content).render = content := by
  obtain ⟨c, rfl⟩ := Cut.exists_join '\n' content
  exact (render_parse_join_eq_iff c).mpr ((steady_iff c).mpr ⟨hu, hr⟩)

/-- A text comes back unchanged just if its breaks are all alike and it does not end in a return. -/
theorem render_parse_eq_iff (content : Text) :
    (parse content).render = content ↔ Uniform content ∧ content.getLast? ≠ some '\r' := by
  obtain ⟨c, rfl⟩ := Cut.exists_join '\n' content
  rw [render_parse_join_eq_iff, steady_iff]

/-- The sources that some text is read as and that are written as that very text. -/
structure Canonical (s : SourceText) : Prop where
  unbroken : ∀ line ∈ s.lines, '\n' ∉ line
  empty : s.lines = [] → s.ending = .lf ∧ s.closed = false
  bare : s.ending = .lf → ∀ line ∈ s.lines, line.getLast? ≠ some '\r'
  has_break : s.ending = .crlf → s.closed = true ∨ 2 ≤ s.lines.length
  open_last : s.closed = false → ∀ last ∈ s.lines.getLast?, last ≠ [] ∧ last.getLast? ≠ some '\r'

theorem Steady.bare {c : Cut '\n'} (h : Steady c) (he : cutEnding c = .lf) :
    ∀ x ∈ c.stretches, x.getLast? ≠ some '\r' := by
  intro x hx
  rcases List.mem_append.mp hx with hx | hx
  · intro hr
    have hcut := (h.ended x hx).mp hr
    rw [he] at hcut
    cases hcut
  · split at hx
    · cases hx
    · exact List.mem_singleton.mp hx ▸ h.rest

theorem Steady.canonical {c : Cut '\n'} (h : Steady c) : Canonical (parse c.join) := by
  have hfree := feed_not_mem_parse c.join
  rw [parse_join] at hfree ⊢
  refine ⟨hfree, ?_, ?_, ?_, ?_⟩
  · intro hnil
    obtain ⟨he, hr⟩ := Cut.stretches_eq_nil_iff.mp (List.map_eq_nil_iff.mp hnil)
    simp [cutEnding, he]
  · intro he line hline
    obtain ⟨x, hx, rfl⟩ := List.mem_map.mp hline
    have hbare := h.bare he x hx
    rwa [dropReturn_of_getLast? hbare]
  · intro he
    have hne : c.ended ≠ [] := by
      intro hnil
      simp [cutEnding, hnil] at he
    by_cases hr : c.rest = []
    · exact Or.inl (decide_eq_true ⟨hr, hne⟩)
    · right
      have hpos := List.length_pos_iff.mpr hne
      simp [Cut.stretches, hr]
      omega
  · intro hopen last hlast
    have hor : c.rest = [] → c.ended = [] := by simpa using hopen
    by_cases hr : c.rest = []
    · simp [Cut.stretches, hr, hor hr] at hlast
    · have he : dropReturn c.rest = last := by simpa [Cut.stretches, hr] using hlast
      rw [dropReturn_of_getLast? h.rest] at he
      exact he ▸ ⟨hr, h.rest⟩

theorem canonical_of_parse_render {s : SourceText} (h : parse s.render = s) : Canonical s := by
  obtain ⟨c, hc⟩ := Cut.exists_join '\n' s.render
  have hs : parse c.join = s := by rw [hc, h]
  have hsteady : Steady c := (render_parse_join_eq_iff c).mp (by rw [hs, hc])
  exact hs ▸ hsteady.canonical

/-- The lines before an open last one show the ending, unless there are none. -/
theorem Canonical.ending_eq {others : List Text} {last : Text} {e : LineEnding}
    (h : Canonical ⟨others ++ [last], e, false⟩) : (if others = [] then .lf else e) = e := by
  cases e with
  | lf => simp
  | crlf =>
    rcases h.has_break rfl with hclosed | hlen
    · cases hclosed
    · have hothers : others ≠ [] := by
        intro hnil
        simp [hnil] at hlen
      simp [hothers]

theorem Canonical.parse_render {s : SourceText} (h : Canonical s) : parse s.render = s := by
  obtain ⟨lines, e, closed⟩ := s
  cases closed with
  | true =>
    have hne : lines ≠ [] := fun hnil => by cases (h.empty hnil).2
    have hread := parse_written h.unbroken List.not_mem_nil h.bare (by simp)
    rw [List.append_nil] at hread
    rw [render_closed, hread]
    simp [hne]
  | false =>
    rcases List.eq_nil_or_concat' lines with rfl | ⟨others, last, rfl⟩
    · have he : e = .lf := (h.empty rfl).1
      subst he
      rfl
    · obtain ⟨hne, hr⟩ := h.open_last rfl last (by simp)
      have hlines : ∀ line ∈ others, line ∈ others ++ [last] :=
        fun line hl => List.mem_append_left _ hl
      have hread := parse_written (fun line hl => h.unbroken line (hlines line hl))
        (h.unbroken last (by simp)) (fun he line hl => h.bare he line (hlines line hl)) hr
      rw [render_open_concat, hread, h.ending_eq]
      simp [hne]

/-- A source comes back unchanged just if it is canonical. -/
theorem parse_render_eq_iff (s : SourceText) : parse s.render = s ↔ Canonical s :=
  ⟨canonical_of_parse_render, Canonical.parse_render⟩

/-- A source that was read is not always canonical: each time it is written it loses a return. -/
example : parse (parse "x\na\r\r\n".toList).render ≠ parse "x\na\r\r\n".toList := by decide

end Marginalia.SourceText
