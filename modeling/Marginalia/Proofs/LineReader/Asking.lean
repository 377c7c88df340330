import Mathlib.Data.List.TakeWhile
import Marginalia.Proofs.LineReader.Arrival
import Marginalia.Proofs.Results
/-!
A reader that is asked for one line after another, and keeps the bytes that it has read ahead. Where
the chunks are cut and which reads are interrupted cannot be told from what it gives.
-/

namespace Marginalia.LineReader

variable {ε : Type}

/-- A reader between two lines: the bytes that it has read ahead and the reads that are to come. -/
structure Reader (ε : Type) where
  ahead : Bytes
  events : List (ReadEvent ε)

namespace Reader

/-- Bytes that have been read ahead are met like a chunk. -/
def pending (r : Reader ε) : List (ReadEvent ε) :=
  if r.ahead = [] then r.events else .chunk r.ahead :: r.events

/-- Takes bytes up to a line feed, and with it, behind those in the buffer. If none comes, the end
of the file ends the line; a failure leaves nothing of it. -/
def fill (buffer : Bytes) : List (ReadEvent ε) → Except ε Bytes × Reader ε
  | [] => (.ok buffer, ⟨[], []⟩)
  | .interrupted :: events => fill buffer events
  | .failed e :: events => (.error e, ⟨[], events⟩)
  | .chunk [] :: events => (.ok buffer, ⟨[], events⟩)
  | .chunk bytes :: events =>
    match bytes.dropWhile (· ≠ lineFeed) with
    | [] => fill (buffer ++ bytes) events
    | _ :: ahead =>
      (.ok (buffer ++ bytes.takeWhile (· ≠ lineFeed) ++ [lineFeed]), ⟨ahead, events⟩)

/-- The next item, if there is one. Every line is taken into an empty buffer. -/
def next (r : Reader ε) : Option (Except ε Text) × Reader ε :=
  match fill [] r.pending with
  | (.error e, r) => (some (.error e), r)
  | (.ok bytes, r) => (if bytes = [] then none else some (.ok (shown bytes)), r)

/-- What a reader gives if it is asked until it has nothing more to give. -/
inductive Yields : Reader ε → List (Except ε Text) → Prop
  | done {r : Reader ε} (h : r.next.1 = none) : Yields r []
  | item {r : Reader ε} {x : Except ε Text} {xs : List (Except ε Text)}
      (h : r.next.1 = some x) (rest : Yields r.next.2 xs) : Yields r (x :: xs)

theorem itemsFrom_chunk {bytes : Bytes} (hne : bytes ≠ []) (held : Bytes)
    (events : List (ReadEvent ε)) :
    itemsFrom held (.chunk bytes :: events) =
      (finished (held ++ bytes)).map (.ok ∘ lineText) ++
        itemsFrom (unfinished (held ++ bytes)) events := by
  cases bytes with
  | nil => contradiction
  | cons b rest => rfl

theorem itemsFrom_chunk_of_free {held bytes : Bytes} (hne : bytes ≠ [])
    (h : lineFeed ∉ held ++ bytes) (events : List (ReadEvent ε)) :
    itemsFrom held (.chunk bytes :: events) = itemsFrom (held ++ bytes) events := by
  have hfinished : finished (held ++ bytes) = [] := congrArg Cut.ended (Cut.of_free h)
  have hunfinished : unfinished (held ++ bytes) = held ++ bytes :=
    congrArg Cut.rest (Cut.of_free h)
  rw [itemsFrom_chunk hne, hfinished, hunfinished]
  rfl

/-- Bytes that have been read ahead are treated as if they had just arrived. -/
theorem items_pending (r : Reader ε) :
    items r.pending =
      (finished r.ahead).map (.ok ∘ lineText) ++ itemsFrom (unfinished r.ahead) r.events := by
  obtain ⟨ahead, events⟩ := r
  cases ahead with
  | nil => rfl
  | cons b rest => rfl

theorem itemsFrom_chunk_of_feed {held first : Bytes} (h : lineFeed ∉ held ++ first) (ahead : Bytes)
    (events : List (ReadEvent ε)) :
    itemsFrom held (.chunk (first ++ lineFeed :: ahead) :: events) =
      .ok (lineText (held ++ first)) :: items (pending ⟨ahead, events⟩) := by
  have hcut : Cut.of lineFeed (held ++ (first ++ lineFeed :: ahead)) =
      (Cut.of lineFeed (held ++ first)).glue (Cut.of lineFeed ahead) := by
    rw [← List.append_assoc, Cut.of_glue]
  have hfinished : finished (held ++ (first ++ lineFeed :: ahead)) =
      (held ++ first) :: finished ahead := by
    have hended := congrArg Cut.ended hcut
    rwa [Cut.of_free h] at hended
  have hunfinished : unfinished (held ++ (first ++ lineFeed :: ahead)) = unfinished ahead :=
    congrArg Cut.rest hcut
  rw [itemsFrom_chunk (by simp), hfinished, hunfinished, items_pending]
  rfl

section Fill

variable {bytes : Bytes} (h : ∀ b ∈ bytes, decide (b ≠ lineFeed) = true)
include h

theorem fill_of_free (hne : bytes ≠ []) (buffer : Bytes) (events : List (ReadEvent ε)) :
    fill buffer (.chunk bytes :: events) = fill (buffer ++ bytes) events := by
  have hdrop : bytes.dropWhile (· ≠ lineFeed) = [] := List.dropWhile_eq_nil_iff.mpr h
  cases bytes with
  | nil => exact absurd rfl hne
  | cons b rest => rw [fill, hdrop]; simp

theorem fill_of_feed (buffer ahead : Bytes) (events : List (ReadEvent ε)) :
    fill buffer (.chunk (bytes ++ lineFeed :: ahead) :: events) =
      (.ok (buffer ++ bytes ++ [lineFeed]), ⟨ahead, events⟩) := by
  have hdrop : (bytes ++ lineFeed :: ahead).dropWhile (· ≠ lineFeed) = lineFeed :: ahead := by
    rw [List.dropWhile_append_of_pos h, List.dropWhile_cons_of_neg (by simp)]
  have htake : (bytes ++ lineFeed :: ahead).takeWhile (· ≠ lineFeed) = bytes := by
    rw [List.takeWhile_append_of_pos h, List.takeWhile_cons_of_neg (by simp), List.append_nil]
  have hne : bytes ++ lineFeed :: ahead ≠ [] := by simp
  rw [fill, hdrop, htake]
  exact hne

end Fill

/-- Filling an empty buffer takes the first item off those that are to come. -/
theorem itemsFrom_eq_fill {buffer : Bytes} (h : lineFeed ∉ buffer) (events : List (ReadEvent ε)) :
    itemsFrom buffer events =
      match fill buffer events with
      | (.error e, r) => .error e :: items r.pending
      | (.ok bytes, r) => if bytes = [] then [] else .ok (shown bytes) :: items r.pending := by
  induction events generalizing buffer with
  | nil => simp [itemsFrom, fill, shown_of_free h, pending, items]
  | cons event events ih =>
    cases event with
    | interrupted => exact ih h
    | failed e => rfl
    | chunk bytes =>
      by_cases hne : bytes = []
      · subst hne
        simp [itemsFrom, fill, shown_of_free h, pending, items]
      by_cases hfeed : lineFeed ∈ bytes
      · obtain ⟨first, ahead, rfl, hfirst⟩ := List.eq_append_cons_of_mem hfeed
        have hline : lineFeed ∉ buffer ++ first := by simp [h, hfirst]
        have hall : ∀ b ∈ first, decide (b ≠ lineFeed) = true :=
          fun b hb => decide_eq_true (fun e => hfirst (e ▸ hb))
        rw [itemsFrom_chunk_of_feed hline, fill_of_feed hall]
        simp only [shown_concat_feed hline]
        simp
      · have hheld : lineFeed ∉ buffer ++ bytes := by simp [h, hfeed]
        have hall : ∀ b ∈ bytes, decide (b ≠ lineFeed) = true :=
          fun b hb => decide_eq_true (fun e => hfeed (e ▸ hb))
        rw [itemsFrom_chunk_of_free hne hheld, fill_of_free hall hne]
        exact ih hheld

theorem items_pending_eq (r : Reader ε) :
    items r.pending =
      match r.next.1 with
      | none => []
      | some x => x :: items r.next.2.pending := by
  rw [items, itemsFrom_eq_fill List.not_mem_nil, next]
  obtain ⟨result, s⟩ := fill [] r.pending
  cases result with
  | error e => rfl
  | ok bytes =>
    by_cases hb : bytes = []
    · simp [hb]
    · simp [hb]

/-- A reader that is asked again and again gives the items of what it has read ahead and of the
reads that are to come. -/
theorem yields_iff {r : Reader ε} {xs : List (Except ε Text)} :
    Yields r xs ↔ xs = items r.pending := by
  constructor
  · intro h
    induction h with
    | done hnone => rw [items_pending_eq, hnone]
    | item hsome _ ih => rw [items_pending_eq, hsome, ih]
  · intro h
    induction xs generalizing r with
    | nil =>
      apply Yields.done
      rw [items_pending_eq] at h
      split at h
      · assumption
      · cases h
    | cons x xs ih =>
      rw [items_pending_eq] at h
      split at h
      · cases h
      · obtain ⟨rfl, hrest⟩ := List.cons.inj h
        exact .item ‹_› (ih hrest)

end Reader

/-- Scripts that differ only in where chunks are cut and in which reads are interrupted. -/
inductive Rechunked : List (ReadEvent ε) → List (ReadEvent ε) → Prop
  | refl (events : List (ReadEvent ε)) : Rechunked events events
  | symm {a b : List (ReadEvent ε)} (h : Rechunked a b) : Rechunked b a
  | trans {a b c : List (ReadEvent ε)} (first : Rechunked a b) (second : Rechunked b c) :
      Rechunked a c
  | cons {a b : List (ReadEvent ε)} (event : ReadEvent ε) (h : Rechunked a b) :
      Rechunked (event :: a) (event :: b)
  | interrupt (events : List (ReadEvent ε)) : Rechunked events (.interrupted :: events)
  | cut {first second : Bytes} (hfirst : first ≠ []) (hsecond : second ≠ [])
      (events : List (ReadEvent ε)) :
      Rechunked (.chunk (first ++ second) :: events) (.chunk first :: .chunk second :: events)

theorem arrivals_cons_congr {a b : List (ReadEvent ε)} (h : arrivals a = arrivals b)
    (event : ReadEvent ε) : arrivals (event :: a) = arrivals (event :: b) := by
  cases event with
  | interrupted => exact h
  | failed e => simp only [arrivals, h]
  | chunk bytes =>
    cases bytes with
    | nil => simp only [arrivals, h]
    | cons x rest => simp only [arrivals, h]

theorem Rechunked.arrivals_eq {a b : List (ReadEvent ε)} (h : Rechunked a b) :
    arrivals a = arrivals b := by
  induction h with
  | refl events => rfl
  | symm _ ih => exact ih.symm
  | trans _ _ first second => exact first.trans second
  | cons event _ ih => exact arrivals_cons_congr ih event
  | interrupt events => rfl
  | cut hfirst hsecond events =>
    rw [arrivals_chunk (List.append_ne_nil_of_left_ne_nil hfirst _), arrivals_chunk hfirst,
      arrivals_chunk hsecond]
    cases arrivals events with
    | nil => rfl
    | cons a others => simp [behind]

/-- A reader gives what the data between the stops of its script tells: it is asked for line after
line, but neither the cuts between chunks nor the interrupted reads show. All its lines are read, or
else the first failure that it comes to is reported. -/
theorem items_eq_itemsOf_arrivals (events : List (ReadEvent ε)) :
    (∀ xs, Reader.Yields ⟨[], events⟩ xs ↔ xs = items events) ∧
    items events = itemsOf (arrivals events) ∧
    (∀ other, Rechunked events other → items other = items events) ∧
    (∀ lines, readLines events = .ok lines ↔ items events = lines.map .ok) ∧
    ∀ e, readLines events = .error e ↔
      ∃ (lines : List Text) (after : List (Except ε Text)),
        items events = lines.map .ok ++ .error e :: after := by
  refine ⟨?_, items_eq_itemsOf events, ?_, ?_, ?_⟩
  · intro xs
    exact Reader.yields_iff
  · intro other h
    rw [items_eq_itemsOf, items_eq_itemsOf, h.arrivals_eq]
  · intro lines
    exact mapM_id_eq_ok_iff
  · intro e
    exact mapM_id_eq_error_iff

/-- A character that two chunks share, an interrupted read, a failure in the middle of a line, the
end of the file in the middle of another, and one between two lines. -/
theorem items_eq_itemsOf_arrivals_broken_script :
    let events : List (ReadEvent Bool) :=
      [.chunk [0xC3], .interrupted, .chunk [0xA9, 0x0D, 0x0A, 0x78], .failed true,
        .chunk [0x79], .chunk [], .chunk [0x7A, 0x0A], .chunk [], .chunk [0x77]]
    let other : List (ReadEvent Bool) :=
      [.chunk [0xC3, 0xA9, 0x0D, 0x0A, 0x78], .failed true, .chunk [0x79], .chunk [],
        .chunk [0x7A, 0x0A], .chunk [], .chunk [0x77]]
    let given : List (Except Bool Text) := [.ok ['é'], .error true, .ok ['y'], .ok ['z']]
    Rechunked events other ∧ items other = given ∧ Reader.Yields ⟨[], events⟩ given ∧
      readLines events = .error true := by
  intro events other given
  have hcut : Rechunked events other :=
    .trans (.cons _ (.symm (.interrupt _)))
      (.symm (.cut (List.cons_ne_nil 0xC3 []) (List.cons_ne_nil 0xA9 [0x0D, 0x0A, 0x78]) _))
  obtain ⟨hyields, _, hsame, _, herror⟩ := items_eq_itemsOf_arrivals events
  have hitems : items events = given := by decide +kernel
  refine ⟨hcut, (hsame other hcut).trans hitems, (hyields given).mpr hitems.symm, ?_⟩
  exact (herror true).mpr ⟨[['é']], [.ok ['y'], .ok ['z']], hitems⟩

end Marginalia.LineReader
