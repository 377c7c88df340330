import Mathlib.Data.List.Forall2
import Marginalia.Insertion
import Marginalia.Report
import Marginalia.Search
/-!
Accounts of numbered lines: the sightings of a report and the hits of a search are told line by
line, and each of them bears the number of its line. So an account follows the lines when others
are put between them: what stood before stays, and what stands behind is moved on.
-/

namespace Marginalia

variable {β : Type}

/-- A way to tell of lines one by one. What is told of a line is the same wherever the line stands,
but for the line's number. -/
structure Account (β : Type) where
  tell : Text → Nat → List β
  number : β → Nat
  move : Nat → β → β
  number_of_mem_tell : ∀ {line n x}, x ∈ tell line n → number x = n
  tell_add : ∀ line n k, tell line (n + k) = (tell line n).map (move k)

namespace Account

/-- What is told of lines that are numbered from `first` on. -/
def told (a : Account β) (first : Nat) (lines : List Text) : List β :=
  (lines.zipIdx first).flatMap fun (line, number) => a.tell line number

variable (a : Account β)

theorem told_cons (first : Nat) (line : Text) (lines : List Text) :
    a.told first (line :: lines) = a.tell line first ++ a.told (first + 1) lines := by
  simp [told, List.zipIdx_cons]

theorem told_append (first : Nat) (upper lower : List Text) :
    a.told first (upper ++ lower) = a.told first upper ++ a.told (first + upper.length) lower := by
  simp [told, List.zipIdx_append]

theorem told_add (first k : Nat) (lines : List Text) :
    a.told (first + k) lines = (a.told first lines).map (a.move k) := by
  induction lines generalizing first with
  | nil => rfl
  | cons line lines ih =>
    rw [told_cons, told_cons, a.tell_add, List.map_append, ← ih (first + 1), Nat.add_right_comm]

variable {a}

theorem exists_of_mem_told {first : Nat} {lines : List Text} {x : β} (h : x ∈ a.told first lines) :
    ∃ line, (line, a.number x) ∈ lines.zipIdx first ∧ x ∈ a.tell line (a.number x) := by
  obtain ⟨⟨line, number⟩, hline, hx⟩ := List.mem_flatMap.mp h
  obtain rfl := a.number_of_mem_tell hx
  exact ⟨line, hline, hx⟩

/-- Each thing is told of the line whose number it bears. -/
theorem mem_told_iff {first : Nat} {lines : List Text} {x : β} :
    x ∈ a.told first lines ↔ first ≤ a.number x ∧
      ∃ line, lines[a.number x - first]? = some line ∧ x ∈ a.tell line (a.number x) := by
  constructor
  · intro h
    obtain ⟨line, hline, hx⟩ := exists_of_mem_told h
    obtain ⟨hle, hget⟩ := List.mk_mem_zipIdx_iff_le_and_getElem?_sub.mp hline
    exact ⟨hle, line, hget, hx⟩
  · rintro ⟨hle, line, hget, hx⟩
    exact List.mem_flatMap.mpr
      ⟨(line, a.number x), List.mk_mem_zipIdx_iff_le_and_getElem?_sub.mpr ⟨hle, hget⟩, hx⟩

theorem first_le_of_mem_told {first : Nat} {lines : List Text} {x : β}
    (h : x ∈ a.told first lines) : first ≤ a.number x :=
  (mem_told_iff.mp h).1

theorem number_lt_of_mem_told {first : Nat} {lines : List Text} {x : β}
    (h : x ∈ a.told first lines) : a.number x < first + lines.length := by
  obtain ⟨hle, line, hget, _⟩ := mem_told_iff.mp h
  have hlt := (List.getElem?_eq_some_iff.mp hget).1
  omega

/-- What is told stands in the order of the lines, so only the things that are told of one line
have to be compared. -/
theorem pairwise_told {R : β → β → Prop} (hline : ∀ line n, (a.tell line n).Pairwise R)
    (hnumber : ∀ x y, a.number x < a.number y → R x y) (first : Nat) (lines : List Text) :
    (a.told first lines).Pairwise R := by
  induction lines generalizing first with
  | nil => exact List.Pairwise.nil
  | cons line lines ih =>
    rw [told_cons, List.pairwise_append]
    refine ⟨hline line first, ih (first + 1), ?_⟩
    intro x hx y hy
    have hfirst := a.number_of_mem_tell hx
    have hlater := first_le_of_mem_told hy
    exact hnumber x y (by omega)

/-- Accounts look the same if what they tell of each line does. -/
theorem map_told_congr {γ : Type} {view : β → γ} {lines others : List Text}
    (h : List.Forall₂ (fun s t => ∀ n, (a.tell s n).map view = (a.tell t n).map view) lines others)
    (first : Nat) : (a.told first lines).map view = (a.told first others).map view := by
  induction h generalizing first with
  | nil => rfl
  | cons hline _ ih =>
    rw [told_cons, told_cons, List.map_append, List.map_append, hline, ih (first + 1)]

theorem filter_upper (first : Nat) (upper lower : List Text) :
    (a.told first (upper ++ lower)).filter (a.number · < first + upper.length) =
      a.told first upper := by
  have hupper : (a.told first upper).filter (a.number · < first + upper.length) =
      a.told first upper := by
    apply List.filter_eq_self.mpr
    intro x hx
    exact decide_eq_true (number_lt_of_mem_told hx)
  have hlower : (a.told (first + upper.length) lower).filter
      (a.number · < first + upper.length) = [] := by
    apply List.filter_eq_nil_iff.mpr
    intro x hx
    simpa using first_le_of_mem_told hx
  rw [told_append, List.filter_append, hupper, hlower, List.append_nil]

theorem filter_lower (first : Nat) (upper lower : List Text) :
    (a.told first (upper ++ lower)).filter (first + upper.length ≤ a.number ·) =
      a.told (first + upper.length) lower := by
  have hupper : (a.told first upper).filter (first + upper.length ≤ a.number ·) = [] := by
    apply List.filter_eq_nil_iff.mpr
    intro x hx
    simpa using number_lt_of_mem_told hx
  have hlower : (a.told (first + upper.length) lower).filter
      (first + upper.length ≤ a.number ·) = a.told (first + upper.length) lower := by
    apply List.filter_eq_self.mpr
    intro x hx
    exact decide_eq_true (first_le_of_mem_told hx)
  rw [told_append, List.filter_append, hupper, hlower, List.nil_append]

/-- Lines that are put before line `n` come into the account there, and what is told of the line
and of those behind it is moved on by as many. -/
theorem told_splice {lines : List Text} {n : Nat} (hfirst : 0 < n) (hlast : n ≤ lines.length)
    (others : List Text) :
    a.told 1 (Insertion.splice lines (n - 1) others) =
      (a.told 1 lines).filter (a.number · < n) ++ (a.told 1 others).map (a.move (n - 1)) ++
        ((a.told 1 lines).filter (n ≤ a.number ·)).map (a.move others.length) := by
  have hlength : 1 + (lines.take (n - 1)).length = n := by
    rw [List.length_take]
    omega
  have hupper := filter_upper (a := a) 1 (lines.take (n - 1)) (lines.drop (n - 1))
  have hlower := filter_lower (a := a) 1 (lines.take (n - 1)) (lines.drop (n - 1))
  rw [List.take_append_drop, hlength] at hupper hlower
  have hothers : a.told n others = (a.told 1 others).map (a.move (n - 1)) := by
    rw [← told_add]
    congr 1
    omega
  rw [Insertion.splice, told_append, told_append, hlength, List.length_append, ← Nat.add_assoc,
    hlength, told_add _ n, hupper, hlower, hothers]

end Account

namespace Hit

def moved (k : Nat) (h : Hit) : Hit := { h with line := h.line + k }

end Hit

namespace Search

/-- The hits of a term as an account. -/
def account (term : Text) : Account Hit where
  tell := hitsAt term
  number := Hit.line
  move := Hit.moved
  number_of_mem_tell := by
    intro line n x hx
    rw [hitsAt] at hx
    split at hx
    · cases hx
    · rw [List.mem_singleton.mp hx]
  tell_add := by
    intro line n k
    rw [hitsAt, hitsAt]
    split
    · rfl
    · rfl

end Search

namespace Sighting

def moved (k : Nat) (x : Sighting) : Sighting := { x with line := x.line + k }

end Sighting

namespace CommentRule

/-- The sightings under a rule as an account. -/
def account (rule : CommentRule) : Account Sighting where
  tell := rule.sightingsAt
  number := Sighting.line
  move := Sighting.moved
  number_of_mem_tell := by
    intro line n x hx
    obtain ⟨m, _, rfl⟩ := List.mem_map.mp hx
    rfl
  tell_add := by
    intro line n k
    rw [sightingsAt, sightingsAt, List.map_map]
    rfl

end CommentRule

end Marginalia
