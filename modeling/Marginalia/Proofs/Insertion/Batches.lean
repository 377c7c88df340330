import Mathlib.Algebra.GroupWithZero.Nat
import Mathlib.Data.List.Perm.Basic
import Marginalia.Proofs.SourceText.Splicing
/-!
Putting in many comments one after another. The lines that come in above a line move it on, so a
comment has to be given the number that its line has by then. If it is, the comments can be put in
in any order.
-/

namespace Marginalia

/-- A comment, and the line that it is to stand before. -/
structure Placement where
  line : Nat
  comment : Text
deriving DecidableEq, Repr

namespace Insertion

/-- Puts in one comment after another, each where its own number says. -/
def insertAll (lines : List Text) (batch : List Placement) : Except Failure (List Text) :=
  batch.foldlM (fun lines p => insert lines p.line p.comment) lines

/-- How many lines the comments of a batch take up. -/
def height (batch : List Placement) : Nat := (batch.map fun p => (pieces p.comment).length).sum

/-- The lines that come in above line `n`. -/
def heightAbove (batch : List Placement) (n : Nat) : Nat := height (batch.filter (·.line < n))

/-- The placements of a batch with the numbers that their lines have by the time of their turn, when
those in `earlier` have been put in. -/
def renumber (earlier : List Placement) : List Placement → List Placement
  | [] => []
  | p :: rest =>
    { p with line := p.line + heightAbove earlier p.line } :: renumber (p :: earlier) rest

/-- What a batch puts before line `n`. -/
def piecesAt (batch : List Placement) (n : Nat) : List Text :=
  (batch.filter (·.line = n)).flatMap fun p => pieces p.comment

/-- Lines that are numbered from `first` on, with the comments of a batch directly before them. -/
def interleavedFrom (batch : List Placement) (first : Nat) (lines : List Text) : List Text :=
  (lines.zipIdx first).flatMap fun (line, n) => piecesAt batch n ++ [line]

def interleaved (batch : List Placement) (lines : List Text) : List Text :=
  interleavedFrom batch 1 lines

/-- Each placement of the batch has a line to itself, and the line is there. -/
structure Fits (batch : List Placement) (lines : List Text) : Prop where
  distinct : (batch.map (·.line)).Nodup
  within : ∀ p ∈ batch, 0 < p.line ∧ p.line ≤ lines.length

theorem Fits.perm {batch order : List Placement} {lines : List Text} (h : Fits batch lines)
    (horder : order.Perm batch) : Fits order lines where
  distinct := (horder.map (·.line)).nodup_iff.mpr h.distinct
  within := fun p hp => h.within p (horder.mem_iff.mp hp)

theorem Fits.sublist {batch fewer : List Placement} {lines : List Text} (h : Fits batch lines)
    (hsub : fewer.Sublist batch) : Fits fewer lines where
  distinct := h.distinct.sublist (hsub.map (·.line))
  within := fun p hp => h.within p (hsub.subset hp)

theorem interleavedFrom_cons (batch : List Placement) (first : Nat) (line : Text)
    (lines : List Text) :
    interleavedFrom batch first (line :: lines) =
      piecesAt batch first ++ line :: interleavedFrom batch (first + 1) lines := by
  simp [interleavedFrom, List.zipIdx_cons]

theorem interleavedFrom_append (batch : List Placement) (first : Nat) (upper lower : List Text) :
    interleavedFrom batch first (upper ++ lower) =
      interleavedFrom batch first upper ++ interleavedFrom batch (first + upper.length) lower := by
  simp [interleavedFrom, List.zipIdx_append]

theorem interleaved_nil (lines : List Text) : interleaved [] lines = lines := by
  have hfrom : ∀ first, interleavedFrom [] first lines = lines := by
    induction lines with
    | nil => exact fun _ => rfl
    | cons line lines ih =>
      intro first
      rw [interleavedFrom_cons, ih (first + 1)]
      rfl
  exact hfrom 1

theorem piecesAt_cons_of_ne {p : Placement} {n : Nat} (h : p.line ≠ n) (batch : List Placement) :
    piecesAt (p :: batch) n = piecesAt batch n := by
  rw [piecesAt, List.filter_cons_of_neg (by simpa using h)]
  rfl

theorem piecesAt_cons_self (p : Placement) (batch : List Placement) :
    piecesAt (p :: batch) p.line = pieces p.comment ++ piecesAt batch p.line := by
  rw [piecesAt, List.filter_cons_of_pos (by simp), List.flatMap_cons]
  rfl

theorem piecesAt_of_free {batch : List Placement} {n : Nat} (h : ∀ q ∈ batch, q.line ≠ n) :
    piecesAt batch n = [] := by
  have hnone : batch.filter (·.line = n) = [] := List.filter_eq_nil_iff.mpr (by simpa using h)
  rw [piecesAt, hnone]
  rfl

/-- A placement leaves lines alone that do not have its number. -/
theorem interleavedFrom_of_outside {p : Placement} {first : Nat} {lines : List Text}
    (h : p.line < first ∨ first + lines.length ≤ p.line) (batch : List Placement) :
    interleavedFrom (p :: batch) first lines = interleavedFrom batch first lines := by
  induction lines generalizing first with
  | nil => rfl
  | cons line lines ih =>
    rw [List.length_cons] at h
    rw [interleavedFrom_cons, interleavedFrom_cons, piecesAt_cons_of_ne (by omega),
      ih (by omega)]

theorem height_cons (p : Placement) (batch : List Placement) :
    height (p :: batch) = (pieces p.comment).length + height batch := by
  rw [height, List.map_cons, List.sum_cons]
  rfl

theorem heightAbove_succ (batch : List Placement) (n : Nat) :
    heightAbove batch (n + 1) = heightAbove batch n + (piecesAt batch n).length := by
  induction batch with
  | nil => rfl
  | cons p batch ih =>
    simp only [heightAbove, piecesAt, List.filter_cons, decide_eq_true_eq] at ih ⊢
    rcases Nat.lt_trichotomy p.line n with hlt | rfl | hgt
    · rw [if_pos (by omega), if_pos hlt, if_neg (by omega), height_cons, height_cons, ih,
        Nat.add_assoc]
    · rw [if_pos (by omega), if_neg (by omega), if_pos rfl, height_cons, ih, List.flatMap_cons,
        List.length_append, Nat.add_left_comm]
    · rw [if_neg (by omega), if_neg (by omega), if_neg (by omega), ih]

/-- Every line is kept, and what comes in between is counted with the line that it stands before. -/
theorem length_interleavedFrom (batch : List Placement) (first : Nat) (lines : List Text) :
    (interleavedFrom batch first lines).length + heightAbove batch first =
      lines.length + heightAbove batch (first + lines.length) := by
  induction lines generalizing first with
  | nil => rfl
  | cons line lines ih =>
    have hnext := heightAbove_succ batch first
    have hrest := ih (first + 1)
    rw [Nat.add_right_comm, Nat.add_assoc] at hrest
    rw [interleavedFrom_cons, List.length_append, List.length_cons, List.length_cons]
    omega

theorem Fits.heightAbove_one {batch : List Placement} {lines : List Text} (h : Fits batch lines) :
    heightAbove batch 1 = 0 := by
  have hnone : batch.filter (·.line < 1) = [] := by
    apply List.filter_eq_nil_iff.mpr
    intro p hp
    have hpos := (h.within p hp).1
    simpa using Nat.ne_of_gt hpos
  rw [heightAbove, hnone]
  rfl

theorem Fits.length_interleaved {batch : List Placement} {lines : List Text}
    (h : Fits batch lines) :
    (interleaved batch lines).length = lines.length + height batch := by
  have hall : batch.filter (·.line < 1 + lines.length) = batch := by
    apply List.filter_eq_self.mpr
    intro p hp
    have hlast := (h.within p hp).2
    exact decide_eq_true (by omega)
  have hlength := length_interleavedFrom batch 1 lines
  rwa [h.heightAbove_one, heightAbove, hall] at hlength

theorem exists_line {lines : List Text} {n : Nat} (hfirst : 0 < n) (hlast : n ≤ lines.length) :
    ∃ upper line lower, lines = upper ++ line :: lower ∧ 1 + upper.length = n := by
  have hlt : n - 1 < lines.length := by omega
  refine ⟨lines.take (n - 1), lines[n - 1], lines.drop (n - 1 + 1), ?_, ?_⟩
  · rw [List.getElem_cons_drop, List.take_append_drop]
  · rw [List.length_take]
    omega

/-- One more comment goes in where its line has moved to. -/
theorem Fits.insert_interleaved {p : Placement} {earlier : List Placement} {lines : List Text}
    (h : Fits (p :: earlier) lines) :
    insert (interleaved earlier lines) (p.line + heightAbove earlier p.line) p.comment =
      .ok (interleaved (p :: earlier) lines) := by
  have hnew : p.line ∉ earlier.map (·.line) := (List.nodup_cons.mp h.distinct).1
  obtain ⟨hfirst, hlast⟩ := h.within p List.mem_cons_self
  have hearlier : Fits earlier lines := h.sublist (List.sublist_cons_self p earlier)
  have hfree : piecesAt earlier p.line = [] := by
    apply piecesAt_of_free
    intro q hq he
    exact hnew (List.mem_map.mpr ⟨q, hq, he⟩)
  have hone := hearlier.heightAbove_one
  -- The lines above keep what stood between them, and so do those below: only what is put before
  -- the line itself is new.
  obtain ⟨upper, line, lower, rfl, hupper⟩ := exists_line hfirst hlast
  have habove : (interleavedFrom earlier 1 upper).length =
      p.line + heightAbove earlier p.line - 1 := by
    have hlength := length_interleavedFrom earlier 1 upper
    rw [hupper] at hlength
    omega
  have hearly : interleaved earlier (upper ++ line :: lower) =
      interleavedFrom earlier 1 upper ++ line :: interleavedFrom earlier (p.line + 1) lower := by
    rw [interleaved, interleavedFrom_append, hupper, interleavedFrom_cons, hfree, List.nil_append]
  have hlate : interleaved (p :: earlier) (upper ++ line :: lower) =
      interleavedFrom earlier 1 upper ++ pieces p.comment ++
        line :: interleavedFrom earlier (p.line + 1) lower := by
    rw [interleaved, interleavedFrom_append, hupper, interleavedFrom_cons, piecesAt_cons_self,
      hfree, List.append_nil, interleavedFrom_of_outside (Or.inr (Nat.le_of_eq hupper)),
      interleavedFrom_of_outside (Or.inl (Nat.lt_succ_self _)), ← List.append_assoc]
  apply insert_eq_ok_iff.mpr
  refine ⟨by omega, ?_, ?_⟩
  · rw [hearly, List.length_append, List.length_cons]
    omega
  · rw [hlate, hearly, ← habove, splice_append]

theorem insertAll_cons (lines : List Text) (p : Placement) (batch : List Placement) :
    insertAll lines (p :: batch) =
      (insert lines p.line p.comment).bind fun lines => insertAll lines batch :=
  rfl

/-- Whatever has been put in, the rest of the batch goes in too, one after another. -/
theorem insertAll_renumber {earlier order : List Placement} {lines : List Text}
    (h : Fits (order ++ earlier) lines) :
    insertAll (interleaved earlier lines) (renumber earlier order) =
      .ok (interleaved (order.reverse ++ earlier) lines) := by
  -- What has been put in so far grows while the rest of the batch is run through.
  induction order generalizing earlier with
  | nil => rfl
  | cons p rest ih =>
    have hnext : Fits (rest ++ p :: earlier) lines := h.perm List.perm_middle
    have hp : Fits (p :: earlier) lines :=
      hnext.sublist (List.sublist_append_right rest (p :: earlier))
    have hstep := hp.insert_interleaved
    have hrest := ih hnext
    rw [renumber, insertAll_cons, hstep, List.reverse_cons, List.append_assoc]
    exact hrest

theorem filter_line_perm {batch order : List Placement} (horder : order.Perm batch)
    (hdistinct : (order.map (·.line)).Nodup) (n : Nat) :
    order.filter (·.line = n) = batch.filter (·.line = n) := by
  induction horder with
  | nil => rfl
  | cons p _ ih => rw [List.filter_cons, List.filter_cons, ih (List.nodup_cons.mp hdistinct).2]
  | swap p q rest =>
    have hne : q.line ≠ p.line := fun he => (List.nodup_cons.mp hdistinct).1 (by simp [he])
    by_cases hp : p.line = n
    · have hq : q.line ≠ n := hp ▸ hne
      simp [hp, hq]
    · simp [List.filter_cons, hp]
  | trans first _ ih ih' =>
    exact (ih hdistinct).trans (ih' ((first.map (·.line)).nodup_iff.mp hdistinct))

/-- Of placements that have a line each to themselves, the order does not matter. -/
theorem Fits.interleaved_eq {batch order : List Placement} {lines : List Text}
    (h : Fits batch lines) (horder : order.Perm batch) :
    interleaved order lines = interleaved batch lines := by
  have hsame := filter_line_perm horder (h.perm horder).distinct
  simp only [interleaved, interleavedFrom, piecesAt, hsame]

/-- Nothing has moved yet above a line that is lower than all that have had their turn. -/
theorem renumber_of_descending {earlier order : List Placement}
    (h : (earlier.reverse ++ order).Pairwise (·.line > ·.line)) :
    renumber earlier order = order := by
  induction order generalizing earlier with
  | nil => rfl
  | cons p rest ih =>
    have hnone : earlier.filter (·.line < p.line) = [] := by
      apply List.filter_eq_nil_iff.mpr
      intro q hq
      have hgt := (List.pairwise_append.mp h).2.2 q (List.mem_reverse.mpr hq) p List.mem_cons_self
      simpa using Nat.le_of_lt hgt
    rw [renumber, heightAbove, hnone, ih]
    · rfl
    · rw [List.reverse_cons, List.append_assoc]
      exact h

/-- A batch of comments that have a line each to themselves can be put in, in any order, if each is
given its line plus the lines that came in above it; what comes of it is the old lines, with the
lines of each comment directly before its own. From the last line to the first, no number has to be
changed at all. -/
theorem insertAll_any_order {batch : List Placement} {lines : List Text}
    (hdistinct : (batch.map (·.line)).Nodup)
    (hwithin : ∀ p ∈ batch, 0 < p.line ∧ p.line ≤ lines.length) {order : List Placement}
    (horder : order.Perm batch) :
    insertAll lines (renumber [] order) = .ok (interleaved batch lines) ∧
    (order.Pairwise (·.line > ·.line) → insertAll lines order = .ok (interleaved batch lines)) ∧
    (interleaved batch lines).length =
      lines.length + (batch.map fun p => p.comment.count '\n' + 1).sum := by
  have hfits : Fits batch lines := ⟨hdistinct, hwithin⟩
  have hall : insertAll lines (renumber [] order) = .ok (interleaved batch lines) := by
    have hrenumbered : Fits (order ++ []) lines := by
      rw [List.append_nil]
      exact hfits.perm horder
    have hrun := insertAll_renumber hrenumbered
    rwa [interleaved_nil, List.append_nil,
      hfits.interleaved_eq ((List.reverse_perm order).trans horder)] at hrun
  refine ⟨hall, ?_, ?_⟩
  · intro hdescending
    have hsame : renumber [] order = order := renumber_of_descending hdescending
    rwa [hsame] at hall
  · have hlength := hfits.length_interleaved
    simpa only [height, length_pieces] using hlength

/-- Three comments, one of them empty and one of two lines, put in from the middle on and from the
last line on. -/
theorem insertAll_any_order_middle_first :
    let lines := ["a", "b", "c"].map String.toList
    let batch : List Placement := [⟨1, "".toList⟩, ⟨3, "x\r\ny".toList⟩, ⟨2, "z".toList⟩]
    let middleFirst : List Placement := [⟨2, "z".toList⟩, ⟨1, "".toList⟩, ⟨3, "x\r\ny".toList⟩]
    let lastFirst : List Placement := [⟨3, "x\r\ny".toList⟩, ⟨2, "z".toList⟩, ⟨1, "".toList⟩]
    let together := ["", "a", "z", "b", "x", "y", "c"].map String.toList
    (batch.map (·.line)).Nodup ∧ (∀ p ∈ batch, 0 < p.line ∧ p.line ≤ lines.length) ∧
      middleFirst.Perm batch ∧ lastFirst.Perm batch ∧
      insertAll lines [⟨2, "z".toList⟩, ⟨1, "".toList⟩, ⟨5, "x\r\ny".toList⟩] = .ok together ∧
      insertAll lines lastFirst = .ok together := by
  intro lines batch middleFirst lastFirst together
  have hdistinct : (batch.map (·.line)).Nodup := by decide
  have hwithin : ∀ p ∈ batch, 0 < p.line ∧ p.line ≤ lines.length := by decide
  have hmiddle : middleFirst.Perm batch := by decide
  have hlast : lastFirst.Perm batch := by decide
  have hdescending : lastFirst.Pairwise (·.line > ·.line) := by decide
  have htogether : interleaved batch lines = together := rfl
  obtain ⟨hrenumbered, _, _⟩ := insertAll_any_order hdistinct hwithin hmiddle
  obtain ⟨_, hunchanged, _⟩ := insertAll_any_order hdistinct hwithin hlast
  rw [htogether] at hrenumbered hunchanged
  exact ⟨hdistinct, hwithin, hmiddle, hlast, hrenumbered, hunchanged hdescending⟩

end Insertion

end Marginalia
