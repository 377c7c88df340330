import Mathlib.Data.List.DropRight
import Marginalia.FileType
import Marginalia.Proofs.Text.Columns
/-!
How the name of a file type may be given: in any case, with dots in front of it and blanks around
all that. There is neither a blank nor a dot in a name, so what is given tells which name it is.
-/

namespace Marginalia

namespace Text

/-- Only letters are written in lower case. -/
theorem toLower_of_isBlank {c : Char} (h : isBlank c = true) : c.toLower = c := by
  apply dif_neg
  intro hcapital
  have hlow : 65 ≤ c.toNat := UInt32.le_iff_toNat_le.mp hcapital.1
  have hhigh : c.toNat ≤ 90 := UInt32.le_iff_toNat_le.mp hcapital.2
  simp only [isBlank, Bool.or_eq_true, Bool.and_eq_true, decide_eq_true_eq, beq_iff_eq] at h
  omega

/-- What is trimmed off a text are blanks at both ends. -/
theorem exists_eq_trim (t : Text) : ∃ before after, t = before ++ trim t ++ after ∧
    (∀ c ∈ before, isBlank c = true) ∧ ∀ c ∈ after, isBlank c = true := by
  refine ⟨t.takeWhile isBlank, (t.dropWhile isBlank).rtakeWhile isBlank, ?_,
    fun c => List.mem_takeWhile_imp, fun c => List.mem_rtakeWhile_imp⟩
  have hback : trim t ++ (t.dropWhile isBlank).rtakeWhile isBlank = t.dropWhile isBlank :=
    List.rdropWhile_append_rtakeWhile
  rw [List.append_assoc, hback, List.takeWhile_append_dropWhile]

theorem IsWord.trim_eq {w before after : Text} (hw : IsWord w)
    (hbefore : ∀ c ∈ before, isBlank c = true) (hafter : ∀ c ∈ after, isBlank c = true) :
    trim (before ++ w ++ after) = w := by
  have hlast := dropEndWhile_eq_self fun c hc => hw.ink c (List.mem_of_getLast? hc)
  obtain ⟨c, rest, rfl⟩ := List.exists_cons_of_ne_nil hw.ne_nil
  have hfirst : ¬ isBlank c = true := by
    rw [hw.ink c List.mem_cons_self]
    exact Bool.false_ne_true
  rw [trim, List.append_assoc, List.dropWhile_append_of_pos hbefore, List.cons_append,
    List.dropWhile_cons_of_neg hfirst, ← List.cons_append, dropEndWhile_append hafter, hlast]

end Text

namespace FileType

/-- The texts that a name is given by. -/
inductive Gives : Text → Text → Prop
  | wrapped {before dots name after : Text} (hbefore : ∀ c ∈ before, Text.isBlank c = true)
      (hdots : ∀ c ∈ dots, c = '.') (hafter : ∀ c ∈ after, Text.isBlank c = true) :
      Gives (before ++ (dots ++ name) ++ after) name

theorem gives_bareName (given : Text) : Gives given (bareName given) := by
  obtain ⟨before, after, hgiven, hbefore, hafter⟩ := Text.exists_eq_trim given
  have htrim : (Text.trim given).takeWhile (· == '.') ++ bareName given = Text.trim given :=
    List.takeWhile_append_dropWhile
  have hdots : ∀ c ∈ (Text.trim given).takeWhile (· == '.'), c = '.' := by
    intro c hc
    have hdot := List.mem_takeWhile_imp hc
    exact beq_iff_eq.mp hdot
  have hgives :
      Gives (before ++ ((Text.trim given).takeWhile (· == '.') ++ bareName given) ++ after)
        (bareName given) :=
    .wrapped hbefore hdots hafter
  rwa [htrim, ← hgiven] at hgives

theorem Gives.bareName_eq {given name : Text} (h : Gives given name) (hname : Text.IsWord name)
    (hdot : '.' ∉ name) : bareName given = name := by
  obtain ⟨hbefore, hdots, hafter⟩ := h
  rename_i before dots after
  have hword : Text.IsWord (dots ++ name) := by
    refine ⟨by simp [hname.ne_nil], ?_⟩
    intro c hc
    rcases List.mem_append.mp hc with hc | hc
    · rw [hdots c hc]
      rfl
    · exact hname.ink c hc
  obtain ⟨c, rest, rfl⟩ := List.exists_cons_of_ne_nil hname.ne_nil
  rw [bareName, hword.trim_eq hbefore hafter, List.dropWhile_append_of_pos (by simpa using hdots)]
  apply List.dropWhile_cons_of_neg
  intro he
  exact hdot (beq_iff_eq.mp he ▸ List.mem_cons_self)

section Names

variable {f g : FileType} {name : Text}

theorem goesBy_iff : f.goesBy name = true ↔
    ∃ known ∈ [f.token, f.title], name.map Char.toLower = known.map Char.toLower := by
  simp [goesBy, sameLetters]

theorem names_apart (f : FileType) : ∀ first ∈ [f.token, f.title], ∀ g ∈ all,
    ∀ second ∈ [g.token, g.title],
      first.map Char.toLower = second.map Char.toLower → f = g := by
  cases f <;> decide

theorem eq_of_goesBy (hf : f.goesBy name = true) (hg : g.goesBy name = true) : f = g := by
  obtain ⟨first, hfirst, hf⟩ := goesBy_iff.mp hf
  obtain ⟨second, hsecond, hg⟩ := goesBy_iff.mp hg
  exact names_apart f first hfirst g (mem_all g) second hsecond (hf.symm.trans hg)

theorem names_free (f : FileType) : ∀ known ∈ [f.token, f.title],
    Text.IsWord (known.map Char.toLower) ∧ '.' ∉ known.map Char.toLower := by
  cases f <;> decide

/-- A blank and a dot are the same in both cases, so no spelling of a name has one. -/
theorem free_of_goesBy (h : f.goesBy name = true) : Text.IsWord name ∧ '.' ∉ name := by
  obtain ⟨known, hknown, hsame⟩ := goesBy_iff.mp h
  obtain ⟨hword, hdot⟩ := names_free f known hknown
  rw [← hsame] at hword hdot
  refine ⟨⟨?_, ?_⟩, ?_⟩
  · intro hnil
    exact hword.ne_nil (List.map_eq_nil_iff.mpr hnil)
  · intro c hc
    by_contra hink
    have hblank : Text.isBlank c = true := by simpa using hink
    have hlower := hword.ink c.toLower (List.mem_map_of_mem hc)
    rw [Text.toLower_of_isBlank hblank, hblank] at hlower
    contradiction
  · intro hmem
    exact hdot (List.mem_map.mpr ⟨'.', hmem, rfl⟩)

/-- A text gives a type if it gives one of its two names, in any case. -/
theorem ofToken?_eq_some_iff {given : Text} :
    ofToken? given = some f ↔ ∃ name, Gives given name ∧ f.goesBy name = true := by
  constructor
  · intro h
    exact ⟨_, gives_bareName given, goesBy_of_ofToken? h⟩
  · intro h
    obtain ⟨name, hgives, hname⟩ := h
    obtain ⟨hword, hdot⟩ := free_of_goesBy hname
    have hbare := hgives.bareName_eq hword hdot
    obtain ⟨g, hg⟩ : ∃ g, ofToken? given = some g := by
      apply Option.isSome_iff_exists.mp
      rw [ofToken?, List.find?_isSome]
      exact ⟨f, mem_all f, hbare ▸ hname⟩
    have hother := goesBy_of_ofToken? hg
    rw [hbare] at hother
    rw [hg, eq_of_goesBy hother hname]

end Names

end FileType

end Marginalia
