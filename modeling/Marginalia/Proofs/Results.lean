import Mathlib.Data.List.Basic
/-!
What the answer of several checks tells about each of them, if they are made one after another until
one fails.
-/

namespace Marginalia

section Chains

variable {ε δ α β : Type}

theorem bind_eq_ok_iff {x : Except ε α} {f : α → Except ε β} {b : β} :
    x >>= f = .ok b ↔ ∃ a, x = .ok a ∧ f a = .ok b := by
  cases x <;> simp [bind, Except.bind]

theorem map_eq_ok_iff {x : Except ε α} {f : α → β} {b : β} :
    x.map f = .ok b ↔ ∃ a, x = .ok a ∧ f a = b := by
  cases x <;> simp [Except.map]

theorem mapError_eq_ok_iff {x : Except ε α} {f : ε → δ} {a : α} :
    x.mapError f = .ok a ↔ x = .ok a := by
  cases x <;> simp [Except.mapError]

theorem mapError_eq_error_iff {x : Except ε α} {f : ε → δ} {e : δ} :
    x.mapError f = .error e ↔ ∃ e', x = .error e' ∧ f e' = e := by
  cases x <;> simp [Except.mapError]

theorem mapError_inj {x y : Except ε α} {f : ε → δ} (hf : ∀ a b, f a = f b → a = b) :
    x.mapError f = y.mapError f ↔ x = y := by
  cases x with
  | ok a => cases y <;> simp [Except.mapError]
  | error a =>
    cases y with
    | ok b => simp [Except.mapError]
    | error b =>
      simp only [Except.mapError, Except.error.injEq]
      exact ⟨hf a b, fun h => h ▸ rfl⟩

/-- Answers are gathered until one of them is a failure. -/
theorem mapM_id_cons (x : Except ε α) (xs : List (Except ε α)) :
    (x :: xs).mapM id =
      match x with
      | .error e => .error e
      | .ok a => (xs.mapM id).map (a :: ·) := by
  rw [List.mapM_cons]
  cases x with
  | error e => rfl
  | ok a => cases xs.mapM id <;> rfl

theorem mapM_id_eq_ok_iff {xs : List (Except ε α)} {answers : List α} :
    xs.mapM id = .ok answers ↔ xs = answers.map .ok := by
  induction xs generalizing answers with
  | nil => cases answers <;> simp [pure, Except.pure]
  | cons x xs ih =>
    rw [mapM_id_cons]
    cases x with
    | error e => cases answers <;> simp
    | ok a =>
      cases answers with
      | nil => cases xs.mapM id <;> simp [Except.map]
      | cons first others =>
        rw [List.map_cons, List.cons.injEq, ← ih]
        cases xs.mapM id <;> simp [Except.map]

theorem mapM_id_eq_error_iff {xs : List (Except ε α)} {e : ε} :
    xs.mapM id = .error e ↔
      ∃ (answers : List α) (after : List (Except ε α)),
        xs = answers.map .ok ++ .error e :: after := by
  induction xs with
  | nil => simp [pure, Except.pure]
  | cons x xs ih =>
    rw [mapM_id_cons]
    cases x with
    | error other =>
      constructor
      · intro h
        exact ⟨[], xs, by rw [Except.error.inj h]; rfl⟩
      · intro h
        obtain ⟨answers, after, h⟩ := h
        cases answers with
        | nil => rw [(List.cons.inj h).1]
        | cons first others => cases (List.cons.inj h).1
    | ok a =>
      have hmap : (xs.mapM id).map (a :: ·) = .error e ↔ xs.mapM id = .error e := by
        cases xs.mapM id <;> simp [Except.map]
      rw [hmap, ih]
      constructor
      · intro h
        obtain ⟨answers, after, rfl⟩ := h
        exact ⟨a :: answers, after, rfl⟩
      · intro h
        obtain ⟨answers, after, h⟩ := h
        cases answers with
        | nil => cases (List.cons.inj h).1
        | cons first others => exact ⟨others, after, (List.cons.inj h).2⟩

end Chains

end Marginalia
