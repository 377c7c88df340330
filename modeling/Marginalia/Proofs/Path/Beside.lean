import Mathlib.Data.List.DropRight
import Marginalia.Proofs.Path.Below
/-!
The path of another entry beside the one that a path names. The directory's path is tidied on the
way to it, so idle segments may be missing before the name, but no other segment is.
-/

namespace Marginalia.Path

/-- Segments with the slashes that end them. -/
def slashed (segments : List Bytes) : Bytes := segments.flatMap (· ++ [slash])

/-- The segments that mark where a path sets out from. -/
def Origin.mark : Origin → List Bytes
  | root => [[]]
  | current => [Path.current]
  | unmarked => []

/-- Segments and what is left of them once those at the end are dropped that are idle. Where there
are none, a `.` stands for them. -/
inductive Tidied : List Bytes → List Bytes → Prop
  | trimmed {kept idle : List Bytes} (hkept : kept ≠ [])
      (hidle : ∀ segment ∈ idle, isIdle segment = true) : Tidied (kept ++ idle) kept
  | here : Tidied [] [Path.current]

theorem Tidied.mem {segments kept : List Bytes} (h : Tidied segments kept) {segment : Bytes}
    (hmem : segment ∈ kept) : segment ∈ segments ∨ segment = Path.current := by
  cases h with
  | trimmed hkept hidle => exact Or.inl (List.mem_append_left _ hmem)
  | here => exact Or.inr (List.mem_singleton.mp hmem)

theorem Tidied.head?_eq_nil_iff {segments kept : List Bytes} (h : Tidied segments kept) :
    kept.head? = some [] ↔ segments.head? = some [] := by
  cases h with
  | trimmed hkept hidle => rw [List.head?_append_of_ne_nil _ hkept]
  | here => simp [Path.current]

section Slashed

variable {segments : List Bytes} {name : Name}

theorem bytes_of_segments {p : Path} (h : p.segments = segments ++ [name]) :
    p.bytes = slashed segments ++ name := by
  have hjoin : [slash].intercalate p.segments = p.bytes := List.intercalate_splitOn slash
  rw [← hjoin, h, intercalate_concat]
  rfl

theorem segments_slashed (hsegments : ∀ segment ∈ segments, slash ∉ segment)
    (hname : slash ∉ name) : (⟨slashed segments ++ name⟩ : Path).segments = segments ++ [name] := by
  have hjoin : slashed segments ++ name = [slash].intercalate (segments ++ [name]) :=
    (intercalate_concat [slash] name segments).symm
  rw [Path.segments, hjoin]
  apply List.splitOn_intercalate
  · intro segment hsegment
    rcases List.mem_append.mp hsegment with hmem | hmem
    · exact hsegments segment hmem
    · rwa [List.mem_singleton.mp hmem]
  · simp

theorem components_of_name {name : Name} (h : EntryName name) :
    (⟨name⟩ : Path).components = [.name name] := by
  simp [components, split, segments_of_name h.slash_not_mem, h.ne_nil, h.ne_current, not_isIdle h,
    component, h.ne_parentName, Origin.components]

theorem isAbsolute_slashed (hsegments : ∀ segment ∈ segments, slash ∉ segment)
    (hname : slash ∉ name) :
    (⟨slashed segments ++ name⟩ : Path).isAbsolute = (segments.head? == some []) := by
  cases segments with
  | nil =>
    cases name with
    | nil => rfl
    | cons b name =>
      have hb : b ≠ slash := fun he => hname (he ▸ List.mem_cons_self)
      simpa [slashed, isAbsolute] using hb
  | cons first rest =>
    cases first with
    | nil => simp [slashed, isAbsolute]
    | cons b first =>
      have hb : b ≠ slash := fun he => hsegments _ List.mem_cons_self (he ▸ List.mem_cons_self)
      simpa [slashed, isAbsolute] using hb

theorem isAbsolute_of_segments {p : Path} (h : p.segments = segments ++ [name]) :
    p.isAbsolute = (segments.head? == some []) := by
  have hfree : ∀ segment ∈ segments ++ [name], slash ∉ segment := by
    intro segment hsegment
    rw [← h] at hsegment
    exact Cut.not_mem_of_mem_splitOn hsegment
  have hslashed := isAbsolute_slashed (fun s hs => hfree s (List.mem_append_left _ hs))
    (hfree name (by simp))
  rwa [← bytes_of_segments h] at hslashed

/-- One name more, where a name stands already. -/
theorem join_slashed {last stem : Name} (hlast : last ≠ []) (hfree : slash ∉ last)
    (hstem : (⟨stem⟩ : Path).isAbsolute = false) (segments : List Bytes) :
    (⟨slashed segments ++ last⟩ : Path).join ⟨stem⟩ = ⟨slashed (segments ++ [last]) ++ stem⟩ := by
  have hopen :
      ¬ (slashed segments ++ last = [] ∨ (slashed segments ++ last).getLast? = some slash) := by
    rw [List.getLast?_append, List.getLast?_eq_some_getLast hlast, Option.some_or,
      Option.some.injEq]
    rintro (hnil | hslash)
    · exact hlast (List.append_eq_nil_iff.mp hnil).2
    · exact hfree (hslash ▸ List.getLast_mem hlast)
  rw [join, hstem, if_neg Bool.false_ne_true, if_neg hopen]
  simp [slashed]

end Slashed

theorem assemble_concat (origin : Origin) (body : List Bytes) (last : Bytes) :
    assemble origin (body ++ [last]) = ⟨slashed (origin.mark ++ body) ++ last⟩ := by
  cases origin with
  | root => simp [assemble, Origin.mark, slashed, intercalate_concat]
  | current =>
    rw [assemble, ← List.cons_append, intercalate_concat]
    rfl
  | unmarked =>
    rw [assemble, intercalate_concat]
    rfl

section Beside

variable {p : Path} {segments : List Bytes} {name : Name}

/-- Where a path sets out from, and its segments between that and the name. -/
theorem exists_body (h : p.segments = segments ++ [name]) (hname : EntryName name) :
    ∃ body, p.split.2 = body ++ [name] ∧ segments = p.split.1.mark ++ body ∧
      (p.split.1 = .unmarked → ∀ first ∈ body.head?, isIdle first = false) := by
  cases segments with
  | nil =>
    have hsplit : p.split = (.unmarked, [name]) := by
      rw [split, h]
      simp [hname.ne_nil, hname.ne_current]
    exact ⟨[], by rw [hsplit]; rfl, by rw [hsplit]; rfl, by simp⟩
  | cons first rest =>
    rw [split, h, List.cons_append]
    by_cases hfirst : first = []
    · exact ⟨rest, by simp [hfirst], by simp [hfirst, Origin.mark], by simp [hfirst]⟩
    · by_cases hcurrent : first = Path.current
      · have hne : Path.current ≠ [] := by decide
        exact ⟨rest, by simp [hcurrent, hne], by simp [hcurrent, hne, Origin.mark],
          by simp [hcurrent, hne]⟩
      · refine ⟨first :: rest, by simp [hfirst, hcurrent], by simp [hfirst, hcurrent, Origin.mark],
          ?_⟩
        intro _ other hother
        obtain rfl : first = other := by simpa using hother
        simp [isIdle, hfirst, hcurrent]

theorem dropIdleEnd_concat (body : List Bytes) (hname : EntryName name) :
    dropIdleEnd (body ++ [name]) = body ++ [name] :=
  List.rdropWhile_concat_neg isIdle body name (by simp [not_isIdle hname])

theorem exists_idle (body : List Bytes) :
    ∃ idle, body = dropIdleEnd body ++ idle ∧ ∀ segment ∈ idle, isIdle segment = true :=
  ⟨body.rtakeWhile isIdle, List.rdropWhile_append_rtakeWhile.symm,
    fun _ hsegment => List.mem_rtakeWhile_imp hsegment⟩

theorem parent_eq {body : List Bytes} (h : p.split.2 = body ++ [name]) (hname : EntryName name) :
    p.parent = assemble p.split.1 (dropIdleEnd body) := by
  have hne : body ++ [name] ≠ [] := by simp
  rw [parent, h, dropIdleEnd_concat body hname]
  obtain ⟨first, rest, hfirst⟩ := List.exists_cons_of_ne_nil hne
  rw [hfirst]
  simp only [← hfirst, List.dropLast_concat]

/-- Another name in the directory of a path's entry comes after the same segments, tidied. -/
theorem directory_join (h : p.segments = segments ++ [name]) (hname : EntryName name)
    {stem : Name} (hstem : slash ∉ stem) :
    ∃ kept, Tidied segments kept ∧ p.directory.join ⟨stem⟩ = ⟨slashed kept ++ stem⟩ := by
  obtain ⟨body, hbody, hsegments, hopen⟩ := exists_body h hname
  obtain ⟨idle, hidle, hall⟩ := exists_idle body
  have hparent := parent_eq hbody hname
  have hrelative : (⟨stem⟩ : Path).isAbsolute = false :=
    @isAbsolute_slashed [] stem (by simp) hstem
  rcases List.eq_nil_or_concat' (dropIdleEnd body) with hnil | ⟨init, last, hlast⟩
  · rw [hnil, List.nil_append] at hidle
    rw [hnil] at hparent
    cases horigin : p.split.1 with
    | root =>
      rw [horigin] at hparent hsegments
      refine ⟨[[]], hsegments ▸ .trimmed (List.cons_ne_nil _ _) (hidle ▸ hall), ?_⟩
      rw [directory, hparent]
      simp [assemble, join, hrelative, slashed]
    | current =>
      rw [horigin] at hparent hsegments
      refine ⟨[Path.current], hsegments ▸ .trimmed (List.cons_ne_nil _ _) (hidle ▸ hall), ?_⟩
      rw [directory, hparent]
      simp [assemble, join, hrelative, slashed, Path.current, slash]
    | unmarked =>
      -- The first segment is not idle here, so there is none.
      have hbodyless : body = [] := by
        cases body with
        | nil => rfl
        | cons first rest =>
          have hfirst := hopen horigin first (by simp)
          rw [hall first (hidle ▸ List.mem_cons_self)] at hfirst
          cases hfirst
      rw [horigin] at hparent hsegments
      subst hbodyless
      refine ⟨[Path.current], hsegments ▸ .here, ?_⟩
      rw [directory, hparent]
      simp [assemble, join, hrelative, slashed, Path.current, slash]
  · have hbusy : isIdle last = false := by
      have hne : body.rdropWhile isIdle ≠ [] := by
        intro hnil
        have hboth := hlast.symm.trans hnil
        simp at hboth
      have hnot := List.rdropWhile_last_not isIdle body hne
      have hgets : (body.rdropWhile isIdle).getLast hne = last := by
        apply Option.some.inj
        rw [← List.getLast?_eq_some_getLast,
          show body.rdropWhile isIdle = init ++ [last] from hlast]
        simp
      rw [hgets] at hnot
      simpa using hnot
    have hne : last ≠ [] := by
      intro hnil
      rw [hnil] at hbusy
      cases hbusy
    have hfree : slash ∉ last := by
      apply Cut.not_mem_of_mem_splitOn (l := p.bytes)
      have hmem : last ∈ p.segments := by
        rw [h, hsegments, hidle, hlast]
        simp
      exact hmem
    rw [hlast, assemble_concat] at hparent
    refine ⟨p.split.1.mark ++ init ++ [last], ?_, ?_⟩
    · rw [hsegments, hidle, hlast, ← List.append_assoc, ← List.append_assoc]
      exact .trimmed (by simp) hall
    · have hbytes : p.parent.bytes ≠ [] := by
        rw [hparent]
        simp [hne]
      rw [directory, if_neg hbytes, hparent, join_slashed hne hfree hrelative]

/-- The directory of a path has no bytes that the path has not, but slashes and dots. -/
theorem mem_directory (h : p.segments = segments ++ [name]) (hname : EntryName name) {b : UInt8}
    (hb : b ∈ p.directory.bytes) : b ∈ p.bytes ∨ b = slash ∨ b ∈ Path.current := by
  obtain ⟨kept, htidied, hjoin⟩ : ∃ kept, Tidied segments kept ∧
      p.directory.join ⟨[]⟩ = ⟨slashed kept ++ []⟩ := directory_join h hname List.not_mem_nil
  have hmem : b ∈ slashed kept := by
    have hjoined : b ∈ (p.directory.join ⟨[]⟩).bytes := by
      have hrelative : (⟨[]⟩ : Path).isAbsolute = false := rfl
      rw [join, hrelative, if_neg Bool.false_ne_true]
      split
      · exact List.mem_append_left _ hb
      · exact List.mem_append_left _ hb
    rwa [hjoin, List.append_nil] at hjoined
  obtain ⟨segment, hsegment, hin⟩ := List.mem_flatMap.mp hmem
  rcases List.mem_append.mp hin with hin | hslash
  · rcases htidied.mem hsegment with hsegments | rfl
    · left
      rw [bytes_of_segments h]
      exact List.mem_append_left _ (List.mem_flatMap.mpr
        ⟨segment, hsegments, List.mem_append_left _ hin⟩)
    · exact Or.inr (Or.inr hin)
  · exact Or.inr (Or.inl (List.mem_singleton.mp hslash))

end Beside

end Marginalia.Path
