import Marginalia.Proofs.Text.Cut
import Marginalia.Proofs.Tree.Places
/-!
The path of a place below a directory: its components are those of the directory and then the names
of the place, and paths below one directory stand in the order of their places.
-/

namespace Marginalia.Path

/-- Where a kind of component comes in the order of paths. -/
def Component.rank : Component → Nat
  | root => 0
  | current => 1
  | parent => 2
  | name _ => 3

/-- Names are in the order of their bytes, after everything that is not a name. -/
def Component.Before : Component → Component → Prop
  | name a, name b => a < b
  | a, b => a.rank < b.rank

/-- The order of paths, component by component. -/
def Before (p q : Path) : Prop := List.Lex Component.Before p.components q.components

/-- A path with one more name, behind one more slash unless a slash ends it already. -/
def below (p : Path) (name : Name) : Path := p.join ⟨name⟩

theorem isAbsolute_eq_false {name : Name} (h : slash ∉ name) :
    (⟨name⟩ : Path).isAbsolute = false := by
  cases name with
  | nil => rfl
  | cons b name =>
    have hb : b ≠ slash := fun he => h (he ▸ List.mem_cons_self)
    simpa [isAbsolute] using hb

theorem below_eq {p : Path} (hp : p.bytes ≠ []) {name : Name} (h : slash ∉ name) :
    p.below name =
      ⟨if p.bytes.getLast? = some slash then p.bytes ++ name else p.bytes ++ slash :: name⟩ := by
  rw [below, join, isAbsolute_eq_false h, if_neg Bool.false_ne_true]
  simp only [hp, false_or]
  split
  · rfl
  · rfl

theorem segments_slash (before after : Bytes) :
    (⟨before ++ slash :: after⟩ : Path).segments =
      (⟨before⟩ : Path).segments ++ (⟨after⟩ : Path).segments := by
  have hjoin :
      ((Cut.of slash before).glue (Cut.of slash after)).join = before ++ slash :: after := by
    rw [Cut.join_glue, Cut.join_of, Cut.join_of]
  rw [segments, ← hjoin, Cut.splitOn_join, segments, segments, Cut.splitOn_eq before,
    Cut.splitOn_eq after]
  simp [Cut.glue]

theorem segments_of_name {name : Name} (h : slash ∉ name) : (⟨name⟩ : Path).segments = [name] :=
  List.splitOn_eq_singleton h

theorem segments_ne_nil (p : Path) : p.segments ≠ [] := List.splitOn_ne_nil slash p.bytes

theorem segments_eq_nil_iff {p : Path} : p.segments = [[]] ↔ p.bytes = [] := by
  constructor
  · intro h
    have hjoin : [slash].intercalate (p.bytes.splitOn slash) = p.bytes :=
      List.intercalate_splitOn slash
    rw [← segments, h] at hjoin
    exact hjoin.symm
  · intro h
    simp [segments, h]

/-- The name comes after the segments of the path, but in the place of the empty one after a slash
that ends it. -/
theorem exists_segments_below {p : Path} (hp : p.bytes ≠ []) {name : Name} (h : slash ∉ name) :
    ∃ front idle, p.segments = front ++ idle ∧ (idle = [] ∨ idle = [[]]) ∧ front ≠ [] ∧
      (p.below name).segments = front ++ [name] := by
  rw [below_eq hp h]
  split
  · rename_i hslash
    obtain ⟨before, hbefore⟩ := List.getLast?_eq_some_iff.mp hslash
    refine ⟨(⟨before⟩ : Path).segments, [[]], ?_, Or.inr rfl, segments_ne_nil _, ?_⟩
    · rw [← segments_of_name (List.not_mem_nil (a := slash)), ← segments_slash, ← hbefore]
    · rw [hbefore, List.append_assoc, ← segments_of_name h]
      exact segments_slash before name
  · refine ⟨p.segments, [], by simp, Or.inl rfl, p.segments_ne_nil, ?_⟩
    rw [← segments_of_name h]
    exact segments_slash p.bytes name

/-- Only a path of no bytes at all has an empty segment and no others. -/
theorem split_cons {p : Path} {first : Bytes} {rest : List Bytes} (hp : p.segments = first :: rest)
    (hne : first = [] → rest ≠ []) :
    p.split =
      if first = [] then (.root, rest)
      else if first = Path.current then (.current, rest)
      else (.unmarked, first :: rest) := by
  rw [split, hp]
  by_cases hfirst : first = []
  · simp [hfirst, hne hfirst]
  · simp [hfirst]

/-- One more name changes nothing about where a path sets out from. -/
theorem exists_split_below {p : Path} (hp : p.bytes ≠ []) {name : Name} (h : slash ∉ name) :
    ∃ body idle, p.split = (p.split.1, body ++ idle) ∧ (∀ segment ∈ idle, isIdle segment = true) ∧
      (p.below name).split = (p.split.1, body ++ [name]) := by
  obtain ⟨front, idle, hsegments, hidle, hfront, hbelow⟩ := exists_segments_below hp h
  have hall : ∀ segment ∈ idle, isIdle segment = true := by
    rcases hidle with rfl | rfl
    · simp
    · simp [isIdle]
  obtain ⟨first, rest, rfl⟩ := List.exists_cons_of_ne_nil hfront
  have hne : first = [] → rest ++ idle ≠ [] := by
    rintro rfl hnil
    rw [List.cons_append, hnil] at hsegments
    exact hp (segments_eq_nil_iff.mp hsegments)
  rw [split_cons hsegments hne, split_cons hbelow (fun _ => by simp)]
  split
  · exact ⟨rest, idle, rfl, hall, rfl⟩
  · split
    · exact ⟨rest, idle, rfl, hall, rfl⟩
    · exact ⟨first :: rest, idle, rfl, hall, rfl⟩

theorem not_isIdle {name : Name} (h : EntryName name) : isIdle name = false := by
  simp [isIdle, h.ne_nil, h.ne_current]

theorem components_below {p : Path} (hp : p.bytes ≠ []) {name : Name} (h : EntryName name) :
    (p.below name).components = p.components ++ [.name name] := by
  obtain ⟨body, idle, hsplit, hidle, hbelow⟩ := exists_split_below hp h.slash_not_mem
  have hdropped : idle.filter (!isIdle ·) = [] :=
    List.filter_eq_nil_iff.mpr fun segment hsegment => by simp [hidle segment hsegment]
  have hwhole := congrArg Prod.snd hsplit
  simp only at hwhole
  simp [components, hbelow, hwhole, hdropped, not_isIdle h, component, h.ne_parentName]

theorem fileName?_below {p : Path} (hp : p.bytes ≠ []) {name : Name} (h : EntryName name) :
    (p.below name).fileName? = some name := by
  obtain ⟨body, _, _, _, hbelow⟩ := exists_split_below hp h.slash_not_mem
  simp [fileName?, hbelow, dropIdleEnd, not_isIdle h, h.ne_parentName]

theorem token?_below {p q : Path} (hp : p.bytes ≠ []) (hq : q.bytes ≠ []) {name : Name}
    (h : EntryName name) : (p.below name).token? = (q.below name).token? := by
  simp only [token?, fileName?_below hp h, fileName?_below hq h]

/-- Of a single component it is the last name that decides. -/
theorem endsIn_below_iff {p q : Path} (hp : p.bytes ≠ []) {name other : Name} (h : EntryName name)
    (hq : q.components = [.name other]) : (p.below name).endsIn q = true ↔ other = name := by
  rw [endsIn, components_below hp h, hq, List.isSuffixOf_iff_suffix]
  constructor
  · intro hsuffix
    have hlast := List.IsSuffix.getLast hsuffix (List.cons_ne_nil _ _)
    simpa using hlast
  · intro he
    rw [he]
    exact List.suffix_append _ _

theorem join_ne_nil {p : Path} (hp : p.bytes ≠ []) (q : Path) : (p.join q).bytes ≠ [] := by
  rw [join]
  split
  · rename_i habsolute
    intro hnil
    simp [isAbsolute, hnil] at habsolute
  · split
    · simp [hp]
    · simp

theorem isAbsolute_below {p : Path} (hp : p.bytes ≠ []) {name : Name} (h : slash ∉ name) :
    (p.below name).isAbsolute = p.isAbsolute := by
  obtain ⟨b, rest, hb⟩ := List.exists_cons_of_ne_nil hp
  rw [below_eq hp h]
  split
  · simp [isAbsolute, hb]
  · simp [isAbsolute, hb]

theorem pathBelow_nil (p : Path) : Disk.pathBelow p [] = p := rfl

theorem pathBelow_concat (p : Path) (place : Place) (name : Name) :
    Disk.pathBelow p (place ++ [name]) = (Disk.pathBelow p place).below name := by
  rw [Disk.pathBelow, List.foldl_append]
  rfl

theorem pathBelow_ne_nil {p : Path} (hp : p.bytes ≠ []) (place : Place) :
    (Disk.pathBelow p place).bytes ≠ [] := by
  induction place generalizing p with
  | nil => exact hp
  | cons name place ih => exact ih (join_ne_nil hp _)

theorem components_pathBelow {p : Path} (hp : p.bytes ≠ []) {place : Place}
    (h : ∀ name ∈ place, EntryName name) :
    (Disk.pathBelow p place).components = p.components ++ place.map .name := by
  induction place using List.reverseRecOn with
  | nil => simp [pathBelow_nil]
  | append_singleton place name ih =>
    rw [pathBelow_concat, components_below (pathBelow_ne_nil hp place) (h name (by simp)),
      ih (fun other ho => h other (List.mem_append_left _ ho))]
    simp

/-- The names of a place come after the segments of a path as a single name does. -/
theorem exists_segments_pathBelow {p : Path} (hp : p.bytes ≠ []) {place : Place}
    (h : ∀ name ∈ place, EntryName name) :
    ∃ front idle, p.segments = front ++ idle ∧ (idle = [] ∨ idle = [[]]) ∧
      (Disk.pathBelow p place).segments = front ++ place := by
  induction place using List.reverseRecOn with
  | nil => exact ⟨p.segments, [], by simp, Or.inl rfl, by simp [pathBelow_nil]⟩
  | append_singleton place name ih =>
    have hname := h name (by simp)
    rcases List.eq_nil_or_concat' place with rfl | ⟨before, last, rfl⟩
    · obtain ⟨front, idle, hsegments, hidle, _, hbelow⟩ :=
        exists_segments_below hp hname.slash_not_mem
      exact ⟨front, idle, hsegments, hidle, hbelow⟩
    · obtain ⟨front, idle, hsegments, hidle, hplace⟩ :=
        ih fun other ho => h other (List.mem_append_left _ ho)
      obtain ⟨front', idle', hsegments', hidle', _, hbelow⟩ :=
        exists_segments_below (pathBelow_ne_nil hp (before ++ [last])) hname.slash_not_mem
      -- A name ends the path by now, and no slash.
      have hnone : idle' = [] := by
        rcases hidle' with hnil | rfl
        · exact hnil
        · have hends := congrArg List.getLast? (hplace.symm.trans hsegments')
          rw [← List.append_assoc, List.getLast?_concat, List.getLast?_concat,
            Option.some.injEq] at hends
          exact absurd hends (h last (by simp)).ne_nil
      rw [hnone, List.append_nil] at hsegments'
      refine ⟨front, idle, hsegments, hidle, ?_⟩
      rw [pathBelow_concat, hbelow, ← hsegments', hplace, List.append_assoc]

theorem isAbsolute_pathBelow {p : Path} (hp : p.bytes ≠ []) {place : Place}
    (h : ∀ name ∈ place, EntryName name) :
    (Disk.pathBelow p place).isAbsolute = p.isAbsolute := by
  induction place using List.reverseRecOn with
  | nil => rfl
  | append_singleton place name ih =>
    rw [pathBelow_concat, isAbsolute_below (pathBelow_ne_nil hp place)
      (h name (by simp)).slash_not_mem, ih fun other ho => h other (List.mem_append_left _ ho)]

theorem getLast?_append_name_ne {name : Name} (h : EntryName name) (front : Bytes) :
    (front ++ name).getLast? ≠ some slash := by
  rw [List.getLast?_append, List.getLast?_eq_some_getLast h.ne_nil, Option.some_or]
  intro hslash
  exact h.slash_not_mem (Option.some.inj hslash ▸ List.getLast_mem h.ne_nil)

/-- Each name brings one more slash, below a path that does not end in one. -/
theorem bytes_pathBelow {p : Path} (hp : p.bytes ≠ []) (hopen : p.bytes.getLast? ≠ some slash)
    {place : Place} (h : ∀ name ∈ place, EntryName name) :
    (Disk.pathBelow p place).bytes = p.bytes ++ place.flatMap (slash :: ·) := by
  induction place generalizing p with
  | nil => simp [pathBelow_nil]
  | cons name place ih =>
    have hname := h name List.mem_cons_self
    have hbelow : p.below name = ⟨p.bytes ++ [slash] ++ name⟩ := by
      rw [below_eq hp hname.slash_not_mem, if_neg hopen]
      simp
    have hrest := ih (p := p.below name) (join_ne_nil hp _)
      (by rw [hbelow]; exact getLast?_append_name_ne hname _)
      (fun other ho => h other (List.mem_cons_of_mem _ ho))
    rw [hbelow] at hrest
    have hstep : Disk.pathBelow p (name :: place) = Disk.pathBelow (p.below name) place := rfl
    rw [hstep, hbelow, hrest]
    simp

section Spelled

variable {place : Place} (h : ∀ name ∈ place, EntryName name)
include h

/-- No slash ends the names of a place that stand behind one each. -/
theorem getLast?_spelled_ne (hne : place ≠ []) :
    (place.flatMap (slash :: ·)).getLast? ≠ some slash := by
  rcases List.eq_nil_or_concat' place with rfl | ⟨before, last, rfl⟩
  · exact absurd rfl hne
  · have hspelled : (before ++ [last]).flatMap (slash :: ·) =
        before.flatMap (slash :: ·) ++ [slash] ++ last := by
      simp
    rw [hspelled]
    exact getLast?_append_name_ne (h last (by simp)) _

/-- The bytes of a place's own path. -/
theorem bytes_pathOf (hne : place ≠ []) :
    (Disk.pathOf place).bytes = place.flatMap (slash :: ·) := by
  obtain ⟨first, rest, rfl⟩ := List.exists_cons_of_ne_nil hne
  have hfirst := h first List.mem_cons_self
  have hbelow : (⟨[slash]⟩ : Path).below first = ⟨[slash] ++ first⟩ := by
    rw [below_eq (List.cons_ne_nil _ _) hfirst.slash_not_mem]
    rfl
  have hstep : Disk.pathOf (first :: rest) = Disk.pathBelow ((⟨[slash]⟩ : Path).below first) rest :=
    rfl
  rw [hstep, hbelow, bytes_pathBelow (by simp) (getLast?_append_name_ne hfirst _)
    (fun other ho => h other (List.mem_cons_of_mem _ ho))]
  simp

theorem segments_spelled : (⟨place.flatMap (slash :: ·)⟩ : Path).segments = [] :: place := by
  induction place using List.reverseRecOn with
  | nil => rfl
  | append_singleton place name ih =>
    rw [List.flatMap_append, List.flatMap_singleton, segments_slash,
      ih fun other ho => h other (List.mem_append_left _ ho),
      segments_of_name (h name (by simp)).slash_not_mem]
    rfl

/-- A path in the directory at a place, from the root on. -/
theorem segments_join_pathOf {q : Path} (hq : q.isAbsolute = false) :
    ((Disk.pathOf place).join q).segments = [] :: (place ++ q.segments) := by
  have hjoin : (Disk.pathOf place).join q = ⟨place.flatMap (slash :: ·) ++ slash :: q.bytes⟩ := by
    rw [join, hq, if_neg Bool.false_ne_true]
    by_cases hplace : place = []
    · rw [hplace]
      rfl
    · have hopen := getLast?_spelled_ne h hplace
      have hbytes := bytes_pathOf h hplace
      have hne : place.flatMap (slash :: ·) ≠ [] := by
        obtain ⟨first, rest, rfl⟩ := List.exists_cons_of_ne_nil hplace
        simp
      rw [hbytes, if_neg (not_or.mpr ⟨hne, hopen⟩)]
  rw [hjoin, segments_slash, segments_spelled h]
  rfl

end Spelled

theorem Component.lex_append (first : List Component) {second third : List Component}
    (h : List.Lex Component.Before second third) :
    List.Lex Component.Before (first ++ second) (first ++ third) := by
  induction first with
  | nil => exact h
  | cons c first ih => exact .cons ih

theorem Component.not_before_self (c : Component) : ¬ Component.Before c c := by
  cases c with
  | name bytes => exact List.lt_irrefl bytes
  | root => exact Nat.lt_irrefl _
  | current => exact Nat.lt_irrefl _
  | parent => exact Nat.lt_irrefl _

theorem ne_of_before {p q : Path} (h : p.Before q) : p ≠ q := by
  rintro rfl
  have hirrefl : ∀ cs : List Component, ¬ List.Lex Component.Before cs cs := by
    intro cs hcs
    induction cs with
    | nil => cases hcs
    | cons c cs ih =>
      cases hcs with
      | cons hlex => exact ih hlex
      | rel hbefore => exact c.not_before_self hbefore
  exact hirrefl _ h

/-- Places are in order just as the paths below them are. -/
theorem before_of_lt {p : Path} (hp : p.bytes ≠ []) {a b : Place} (ha : ∀ name ∈ a, EntryName name)
    (hb : ∀ name ∈ b, EntryName name) (h : a < b) :
    (Disk.pathBelow p a).Before (Disk.pathBelow p b) := by
  rw [Before, components_pathBelow hp ha, components_pathBelow hp hb]
  apply Component.lex_append
  have hlex : List.Lex (· < ·) a b := h
  induction hlex with
  | nil => exact .nil
  | rel hlt => exact .rel hlt
  | cons _ ih =>
    exact .cons (ih (fun name hn => ha name (List.mem_cons_of_mem _ hn))
      (fun name hn => hb name (List.mem_cons_of_mem _ hn)) ‹_›)

end Marginalia.Path
