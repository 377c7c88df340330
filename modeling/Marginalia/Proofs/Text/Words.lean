import Mathlib.Data.List.Basic
import Mathlib.Data.List.Induction
import Marginalia.Text.Blank
/-!
Words in texts. A word has no blanks, so trimming a text neither makes one nor takes one away, and
none arises where two texts meet at a blank.
-/

namespace Marginalia.Text

/-- A text that can be looked for or opened with: it is not empty and has no blank in it. -/
structure IsWord (w : Text) : Prop where
  ne_nil : w ≠ []
  ink : ∀ c ∈ w, isBlank c = false

theorem isWord_iff (w : Text) : IsWord w ↔ w ≠ [] ∧ w.any isBlank = false := by
  rw [List.any_eq_false]
  simp only [Bool.not_eq_true]
  exact ⟨fun h => ⟨h.ne_nil, h.ink⟩, fun ⟨hne, hink⟩ => ⟨hne, hink⟩⟩

instance : DecidablePred IsWord := fun w => decidable_of_iff _ (isWord_iff w).symm

theorem dropEndWhile_concat {p : Char → Bool} {c : Char} (hc : p c = true) (t : Text) :
    dropEndWhile p (t ++ [c]) = dropEndWhile p t := by
  simp [dropEndWhile, hc]

theorem dropEndWhile_eq_self {p : Char → Bool} {t : Text} (h : ∀ c ∈ t.getLast?, p c = false) :
    dropEndWhile p t = t := by
  rcases List.eq_nil_or_concat' t with rfl | ⟨before, c, rfl⟩
  · rfl
  · have hc : p c = false := h c (by simp)
    simp [dropEndWhile, hc]

theorem prefix_dropEndWhile {p : Char → Bool} {s : Text} (hs : ∀ c ∈ s, p c = false) (t : Text) :
    s <+: dropEndWhile p (s ++ t) := by
  induction t using List.reverseRecOn with
  | nil =>
    have hself := dropEndWhile_eq_self (fun c hc => hs c (List.mem_of_getLast? hc))
    exact ⟨[], by rw [List.append_nil, hself]⟩
  | append_singleton t c ih =>
    rw [← List.append_assoc]
    by_cases hc : p c = true
    · rwa [dropEndWhile_concat hc]
    · rw [dropEndWhile_eq_self (by simpa using hc), List.append_assoc]
      exact List.prefix_append s _

theorem trim_concat {c : Char} (hc : isBlank c = true) (t : Text) : trim (t ++ [c]) = trim t := by
  rw [trim, trim, List.dropWhile_append]
  split
  · rename_i hempty
    rw [List.isEmpty_iff.mp hempty, List.dropWhile_cons_of_pos hc, List.dropWhile_nil]
  · exact dropEndWhile_concat hc _

/-- Blanks that are taken off the end would have been trimmed away. -/
theorem trim_dropEndWhile {p : Char → Bool} (hp : ∀ c, p c = true → isBlank c = true) (t : Text) :
    trim (dropEndWhile p t) = trim t := by
  induction t using List.reverseRecOn with
  | nil => rfl
  | append_singleton t c ih =>
    by_cases hc : p c = true
    · rw [dropEndWhile_concat hc, trim_concat (hp c hc), ih]
    · rw [dropEndWhile_eq_self (by simpa using hc)]

theorem infix_dropWhile_iff {p : Char → Bool} {w : Text} (hne : w ≠ [])
    (hw : ∀ c ∈ w, p c = false) (t : Text) : w <:+: t.dropWhile p ↔ w <:+: t := by
  induction t with
  | nil => rfl
  | cons c t ih =>
    by_cases hc : p c = true
    · have hstart : ¬ w <+: c :: t := by
        intro hprefix
        obtain ⟨d, rest, rfl⟩ := List.exists_cons_of_ne_nil hne
        have hd := hw d List.mem_cons_self
        rw [(List.cons_prefix_cons.mp hprefix).1, hc] at hd
        contradiction
      rw [List.dropWhile_cons_of_pos hc, ih, List.infix_cons_iff]
      simp [hstart]
    · rw [List.dropWhile_cons_of_neg hc]

theorem infix_dropEndWhile_iff {p : Char → Bool} {w : Text} (hne : w ≠ [])
    (hw : ∀ c ∈ w, p c = false) (t : Text) : w <:+: dropEndWhile p t ↔ w <:+: t := by
  have hreverse := infix_dropWhile_iff (w := w.reverse) (by simpa using hne) (by simpa using hw)
    t.reverse
  rw [dropEndWhile, ← List.reverse_infix, List.reverse_reverse, hreverse, List.reverse_infix]

namespace IsWord

variable {w : Text}

theorem infix_trim_iff (hw : IsWord w) (t : Text) : w <:+: trim t ↔ w <:+: t := by
  rw [trim, infix_dropEndWhile_iff hw.ne_nil hw.ink, infix_dropWhile_iff hw.ne_nil hw.ink]

theorem prefix_trim (hw : IsWord w) {t : Text} (h : w <+: t) : w <+: trim t := by
  obtain ⟨rest, rfl⟩ := h
  have hstart : (w ++ rest).dropWhile isBlank = w ++ rest := by
    obtain ⟨c, others, rfl⟩ := List.exists_cons_of_ne_nil hw.ne_nil
    exact List.dropWhile_cons_of_neg (by simp [hw.ink c List.mem_cons_self])
  rw [trim, hstart]
  exact prefix_dropEndWhile hw.ink rest

/-- A word in two texts that are put together is in one of them, where the first ends in a blank. -/
theorem infix_append_iff_of_getLast? (hw : IsWord w) {s : Text}
    (hs : s.getLast?.all isBlank = true) (t : Text) :
    w <:+: s ++ t ↔ w <:+: s ∨ w <:+: t := by
  rw [List.infix_append_iff_ne_nil]
  constructor
  · rintro (h | h | ⟨first, second, hfirst, _, rfl, ⟨before, rfl⟩, _⟩)
    · exact Or.inl h
    · exact Or.inr h
    · have hlast := (Option.all_eq_true _ _).mp hs (first.getLast hfirst)
        (by simp [List.getLast?_append, List.getLast?_eq_some_getLast hfirst])
      have hink := hw.ink _ (List.mem_append_left second (List.getLast_mem hfirst))
      rw [hlast] at hink
      contradiction
  · rintro (h | h)
    · exact Or.inl h
    · exact Or.inr (Or.inl h)

/-- And likewise where the second starts with a blank. -/
theorem infix_append_iff_of_head? (hw : IsWord w) (s : Text) {t : Text}
    (ht : t.head?.all isBlank = true) : w <:+: s ++ t ↔ w <:+: s ∨ w <:+: t := by
  have hreverse : IsWord w.reverse := ⟨by simpa using hw.ne_nil, by simpa using hw.ink⟩
  have h := hreverse.infix_append_iff_of_getLast? (s := t.reverse) (by simpa using ht) s.reverse
  rw [← List.reverse_append, List.reverse_infix, List.reverse_infix, List.reverse_infix] at h
  rw [h, or_comm]

theorem not_infix_of_blank (hw : IsWord w) {s : Text} (hs : ∀ c ∈ s, isBlank c = true) :
    ¬ w <:+: s := by
  intro hin
  obtain ⟨c, hc⟩ := List.exists_mem_of_ne_nil w hw.ne_nil
  have hink := hw.ink c hc
  rw [hs c (hin.subset hc)] at hink
  contradiction

/-- A word behind a text that ends in a blank and does not hold it is there for the first time. -/
theorem eq_nil_of_append_eq (hw : IsWord w) {s : Text} (hs : s.getLast?.all isBlank = true)
    (hnone : ¬ w <:+: s) {before after : Text} (h : s ++ w = before ++ w ++ after) :
    after = [] := by
  -- The word that is found starts in the text and goes on behind it, or starts behind it, or lies
  -- wholly within it.
  rcases List.append_eq_append_iff.mp h with ⟨tail, hbefore, hword⟩ | ⟨rest, hall, _⟩
  · rcases List.append_eq_append_iff.mp hbefore with ⟨between, hstart, hover⟩ | ⟨part, _, htail⟩
    · rcases List.eq_nil_or_concat' between with rfl | ⟨others, c, rfl⟩
      · rw [List.nil_append] at hover
        exact List.self_eq_append_right.mp (hover ▸ hword)
      · have hblank : isBlank c = true := by simpa [hstart] using hs
        have hink := hw.ink c (by simp [hover])
        rw [hblank] at hink
        contradiction
    · have hlength := congrArg List.length hword
      simp only [htail, List.length_append] at hlength
      exact List.length_eq_zero_iff.mp (by omega)
  · exact absurd ⟨before, rest, hall.symm⟩ hnone

end IsWord

end Marginalia.Text
