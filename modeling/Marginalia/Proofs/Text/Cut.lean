import Mathlib.Data.List.Basic
/-!
Cutting a list at one of its values. A text and the stretches that its line feeds cut it into say
the same: either can be got back from the other, so two texts are equal as soon as they are cut
alike.
-/

namespace Marginalia

variable {α : Type} {a : α}

/-- Stretches that each end at a break `a`, and what stands after the last break. -/
@[ext]
structure Cut (a : α) where
  ended : List (List α)
  rest : List α
  ended_free : ∀ x ∈ ended, a ∉ x
  rest_free : a ∉ rest

/-- Only between the parts, or else after each part but the last: that is the same. -/
theorem intercalate_concat (sep last : List α) (parts : List (List α)) :
    sep.intercalate (parts ++ [last]) = parts.flatMap (· ++ sep) ++ last := by
  induction parts with
  | nil => simp
  | cons part parts ih =>
    have hne : parts ++ [last] ≠ [] := by simp
    simp [List.intercalate_cons_of_ne_nil hne, ih]

namespace Cut

/-- The list that is cut so. -/
def join (c : Cut a) : List α := c.ended.flatMap (· ++ [a]) ++ c.rest

/-- The stretches that count as lines: nothing after the last break is no line. -/
def stretches (c : Cut a) : List (List α) := c.ended ++ if c.rest = [] then [] else [c.rest]

theorem stretches_eq_nil_iff {c : Cut a} : c.stretches = [] ↔ c.ended = [] ∧ c.rest = [] := by
  by_cases hr : c.rest = [] <;> simp [stretches, hr]

theorem parts_free (c : Cut a) : ∀ x ∈ c.ended ++ [c.rest], a ∉ x := by
  intro x hx
  rcases List.mem_append.mp hx with he | hr
  · exact c.ended_free x he
  · exact List.mem_singleton.mp hr ▸ c.rest_free

theorem stretches_free (c : Cut a) : ∀ x ∈ c.stretches, a ∉ x := by
  intro x hx
  apply c.parts_free
  rcases List.mem_append.mp hx with he | hr
  · exact List.mem_append_left _ he
  · split at hr
    · cases hr
    · exact List.mem_append_right _ hr

/-- A list, a break, and another list. -/
def glue (b c : Cut a) : Cut a where
  ended := b.ended ++ b.rest :: c.ended
  rest := c.rest
  ended_free := by
    intro x hx
    rcases List.mem_append.mp hx with hb | hc
    · exact b.ended_free x hb
    · rcases List.mem_cons.mp hc with he | hc
      · exact he ▸ b.rest_free
      · exact c.ended_free x hc
  rest_free := c.rest_free

theorem join_glue (b c : Cut a) : (b.glue c).join = b.join ++ a :: c.join := by
  simp [join, glue]

theorem join_eq_nil_iff {c : Cut a} : c.join = [] ↔ c.ended = [] ∧ c.rest = [] := by
  cases he : c.ended with
  | nil => simp [join, he]
  | cons x others => simp [join, he]

/-- The last value of a list is the last one after its last break, unless it is the break. -/
theorem getLast?_join (c : Cut a) :
    c.join.getLast? =
      if c.rest ≠ [] then c.rest.getLast? else if c.ended ≠ [] then some a else none := by
  by_cases hr : c.rest = []
  · rcases List.eq_nil_or_concat' c.ended with he | ⟨before, x, he⟩
    · simp [join, hr, he]
    · simp [join, hr, he]
  · simp [join, hr, List.getLast?_eq_some_getLast hr]

theorem getLast?_join_of_ne {v : α} (hv : v ≠ a) (c : Cut a) :
    c.join.getLast? = some v ↔ c.rest.getLast? = some v := by
  rw [getLast?_join]
  by_cases hr : c.rest = []
  · by_cases he : c.ended = [] <;> simp [hr, he, hv.symm]
  · simp [hr]

theorem getLast?_join_eq_break (c : Cut a) :
    c.join.getLast? = some a ↔ c.rest = [] ∧ c.ended ≠ [] := by
  rw [getLast?_join]
  by_cases hr : c.rest = []
  · by_cases he : c.ended = [] <;> simp [hr, he]
  · have hne : c.rest.getLast? ≠ some a := fun h => c.rest_free (List.mem_of_getLast? h)
    simp [hr, hne]

theorem exists_break {c : Cut a} {x : List α} (hx : x ∈ c.ended) :
    ∃ before after, c.join = before ++ a :: after ∧
      ∀ v ≠ a, (before.getLast? = some v ↔ x.getLast? = some v) := by
  obtain ⟨first, others, he⟩ := List.append_of_mem hx
  have hfree := c.ended_free
  rw [he] at hfree
  let b : Cut a := ⟨first, x, fun y hy => hfree y (by simp [hy]), hfree x (by simp)⟩
  let d : Cut a := ⟨others, c.rest, fun y hy => hfree y (by simp [hy]), c.rest_free⟩
  have hc : c = b.glue d := by
    ext1
    · exact he
    · rfl
  exact ⟨b.join, d.join, by rw [hc, join_glue], fun v hv => getLast?_join_of_ne hv b⟩

/-- There is one stretch more than there are breaks. -/
theorem length_splitOn [BEq α] (a : α) (l : List α) : (l.splitOn a).length = l.count a + 1 := by
  induction l with
  | nil => rfl
  | cons b l ih =>
    rw [List.splitOn_cons_eq_if_modifyHead, List.count_cons]
    split
    · rw [List.length_cons, ih]
    · rw [List.length_modifyHead, ih, Nat.add_zero]

section Splitting

variable [BEq α] [LawfulBEq α]

theorem not_mem_of_mem_splitOn {l x : List α} (hx : x ∈ l.splitOn a) : a ∉ x := by
  induction l generalizing x with
  | nil =>
    rw [List.splitOn_nil, List.mem_singleton] at hx
    simp [hx]
  | cons b l ih =>
    rw [List.splitOn_cons_eq_if_modifyHead] at hx
    split at hx
    · rcases List.mem_cons.mp hx with he | ht
      · simp [he]
      · exact ih ht
    · rename_i hb
      have hab : a ≠ b := fun e => hb (by simp [e])
      cases hs : l.splitOn a with
      | nil => exact absurd hs (List.splitOn_ne_nil a l)
      | cons first others =>
        rw [hs, List.modifyHead_cons] at hx
        rcases List.mem_cons.mp hx with he | ht
        · have hf := ih (hs ▸ List.mem_cons_self)
          simp [he, hab, hf]
        · exact ih (hs ▸ List.mem_cons_of_mem first ht)

/-- What comes before the first break goes to the first stretch. -/
theorem splitOn_append_of_not_mem {first : List α} (h : a ∉ first) (second : List α) :
    (first ++ second).splitOn a = (second.splitOn a).modifyHead (first ++ ·) := by
  induction first with
  | nil => exact (congrFun List.modifyHead_id _).symm
  | cons b first ih =>
    have hb : (b == a) ≠ true := fun he => h (by simp [beq_iff_eq.mp he])
    have hfirst : a ∉ first := fun hm => h (List.mem_cons_of_mem b hm)
    rw [List.cons_append, List.splitOn_cons_eq_if_modifyHead, if_neg hb, ih hfirst,
      List.modifyHead_modifyHead]
    rfl

/-- The cut of a list at every `a` in it. -/
def of (a : α) (l : List α) : Cut a where
  ended := (l.splitOn a).dropLast
  rest := (l.splitOn a).getLastD []
  ended_free := fun _ hx => not_mem_of_mem_splitOn (List.dropLast_subset _ hx)
  rest_free := by
    have hne := List.splitOn_ne_nil a l
    rw [List.getLastD_eq_getLast?, List.getLast?_eq_some_getLast hne]
    exact not_mem_of_mem_splitOn (List.getLast_mem hne)

theorem splitOn_eq (l : List α) : l.splitOn a = (of a l).ended ++ [(of a l).rest] := by
  have hne := List.splitOn_ne_nil a l
  have hlast : (l.splitOn a).getLastD [] = (l.splitOn a).getLast hne := by
    rw [List.getLastD_eq_getLast?, List.getLast?_eq_some_getLast hne]
    rfl
  simp only [of, hlast]
  exact (List.dropLast_concat_getLast hne).symm

theorem join_of (l : List α) : (of a l).join = l := by
  calc (of a l).join = [a].intercalate ((of a l).ended ++ [(of a l).rest]) :=
        (intercalate_concat [a] _ _).symm
    _ = [a].intercalate (l.splitOn a) := by rw [splitOn_eq l]
    _ = l := List.intercalate_splitOn a

theorem splitOn_join (c : Cut a) : c.join.splitOn a = c.ended ++ [c.rest] := by
  rw [join, ← intercalate_concat]
  exact List.splitOn_intercalate a c.parts_free (by simp)

theorem of_join (c : Cut a) : of a c.join = c := by
  ext1
  · simp [of, splitOn_join]
  · simp [of, splitOn_join]

theorem join_inj {b c : Cut a} : b.join = c.join ↔ b = c := by
  constructor
  · intro h
    rw [← of_join b, h, of_join c]
  · intro h
    rw [h]

theorem mem_of_mem_splitOn {l x : List α} (hx : x ∈ l.splitOn a) {b : α} (hb : b ∈ x) : b ∈ l := by
  rw [splitOn_eq, List.mem_append] at hx
  rw [← join_of (a := a) l, join, List.mem_append, List.mem_flatMap]
  rcases hx with hx | hx
  · exact Or.inl ⟨x, hx, List.mem_append_left _ hb⟩
  · exact Or.inr (List.mem_singleton.mp hx ▸ hb)

/-- A list without breaks is nothing but rest. -/
theorem of_free {l : List α} (h : a ∉ l) : of a l = ⟨[], l, by simp, h⟩ := by
  apply join_inj.mp
  rw [join_of]
  rfl

theorem of_glue (a : α) (first second : List α) :
    of a (first ++ a :: second) = (of a first).glue (of a second) := by
  apply join_inj.mp
  rw [join_glue, join_of, join_of, join_of]

/-- What comes after goes on with the rest. -/
theorem of_append (a : α) (first second : List α) :
    of a (first ++ second) =
      ⟨(of a first).ended ++ (of a ((of a first).rest ++ second)).ended,
        (of a ((of a first).rest ++ second)).rest,
        fun x hx => (List.mem_append.mp hx).elim ((of a first).ended_free x)
          ((of a ((of a first).rest ++ second)).ended_free x),
        (of a ((of a first).rest ++ second)).rest_free⟩ := by
  apply join_inj.mp
  have hsecond := join_of (a := a) ((of a first).rest ++ second)
  have hfirst := join_of (a := a) first
  rw [join_of]
  simp only [join, List.flatMap_append, List.append_assoc] at hsecond hfirst ⊢
  rw [hsecond, ← List.append_assoc, hfirst]

/-- What stands before a break ends like the stretch that the break ends. -/
theorem exists_ended {c : Cut a} {before after : List α} (h : c.join = before ++ a :: after) :
    ∃ x ∈ c.ended, ∀ v ≠ a, (before.getLast? = some v ↔ x.getLast? = some v) := by
  have hc : c = (of a before).glue (of a after) := by
    rw [← of_glue, ← h, of_join]
  refine ⟨(of a before).rest, ?_, ?_⟩
  · rw [hc]
    simp [glue]
  · intro v hv
    rw [← getLast?_join_of_ne hv, join_of]

/-- To know how the lists before the breaks end, it is enough to know how the stretches end. -/
theorem forall_break_iff (c : Cut a) {v : α} (hv : v ≠ a) (q : Prop) :
    (∀ before after, c.join = before ++ a :: after → (before.getLast? = some v ↔ q)) ↔
      ∀ x ∈ c.ended, x.getLast? = some v ↔ q := by
  constructor
  · intro h x hx
    obtain ⟨before, after, hj, hb⟩ := exists_break hx
    exact (hb v hv).symm.trans (h before after hj)
  · intro h before after hj
    obtain ⟨x, hx, hb⟩ := exists_ended hj
    exact (hb v hv).trans (h x hx)

/-- To prove something of every list, prove it of every join. -/
theorem exists_join (a : α) (l : List α) : ∃ c : Cut a, c.join = l := ⟨of a l, join_of l⟩

end Splitting

end Cut

end Marginalia
