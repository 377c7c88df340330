import Marginalia.Proofs.LineReader.Numbering
/-!
What a reader gives is told by the data between two ends of the file or failures, put together from
its chunks. A reader that is asked for one line after another, and keeps the bytes that it has read
ahead, gives the same.
-/

namespace Marginalia

theorem Text.dropEndWhile_congr {p q : Char → Bool} {t : Text} (h : ∀ c ∈ t, p c = q c) :
    dropEndWhile p t = dropEndWhile q t := by
  induction t using List.reverseRecOn with
  | nil => rfl
  | append_singleton t c ih =>
    have hc := h c (by simp)
    have ht := ih (fun x hx => h x (List.mem_append_left _ hx))
    cases hq : q c with
    | true => rw [dropEndWhile_concat (hc.trans hq), dropEndWhile_concat hq, ht]
    | false => rw [dropEndWhile_eq_self (by simp [hc, hq]), dropEndWhile_eq_self (by simp [hq])]

namespace LineReader

variable {ε : Type}

/-- What ends a stretch of data. -/
inductive Stop (ε : Type) where
  | endOfFile
  | failed (e : ε)
deriving DecidableEq, Repr

/-- The data up to each end of the file and each failure, however it was cut into chunks and however
often a read was interrupted. After the last read the file has ended. -/
def arrivals : List (ReadEvent ε) → List (Bytes × Stop ε)
  | [] => [([], .endOfFile)]
  | .interrupted :: events => arrivals events
  | .failed e :: events => ([], .failed e) :: arrivals events
  | .chunk [] :: events => ([], .endOfFile) :: arrivals events
  | .chunk bytes :: events => (arrivals events).modifyHead fun a => (bytes ++ a.1, a.2)

/-- What the bytes of a line say, without the line feed and the returns at their end. -/
def shown (bytes : Bytes) : Text :=
  Text.dropEndWhile (fun c => c == '\n' || c == '\r') (Utf8.decodeLossy bytes)

/-- What is given at a stop, with an unfinished line `held` and the items that come `later`. A
failure takes the unfinished line with it; the end of the file ends it, and if there is none, the
reading. -/
def itemsAt (held : Bytes) (later : List (Except ε Text)) : Stop ε → List (Except ε Text)
  | .failed e => .error e :: later
  | .endOfFile => if held = [] then [] else .ok (shown held) :: later

/-- The items of some stretches of data: one for each line that a line feed ends, and what is given
at the stops. -/
def itemsOf : List (Bytes × Stop ε) → List (Except ε Text)
  | [] => []
  | (data, stop) :: rest =>
    let cut := Cut.of lineFeed data
    cut.ended.map (fun line => .ok (shown (line ++ [lineFeed]))) ++
      itemsAt cut.rest (itemsOf rest) stop

theorem shown_concat_feed {line : Bytes} (h : lineFeed ∉ line) :
    shown (line ++ [lineFeed]) = lineText line :=
  lineText_eq h

theorem shown_of_free {line : Bytes} (h : lineFeed ∉ line) : shown line = lineText line := by
  apply Text.dropEndWhile_congr
  intro c hc
  have hne : c ≠ '\n' := fun e => Utf8.feed_not_mem_decodeLossy h (e ▸ hc)
  simp [hne]

/-- Data that comes behind the bytes of an unfinished line. -/
def behind (held : Bytes) (a : Bytes × Stop ε) : Bytes × Stop ε := (held ++ a.1, a.2)

theorem modifyHead_behind_nil (as : List (Bytes × Stop ε)) : as.modifyHead (behind []) = as := by
  cases as <;> rfl

theorem arrivals_chunk {bytes : Bytes} (h : bytes ≠ []) (events : List (ReadEvent ε)) :
    arrivals (.chunk bytes :: events) = (arrivals events).modifyHead (behind bytes) := by
  cases bytes with
  | nil => contradiction
  | cons b rest => rfl

theorem arrivals_ne_nil (events : List (ReadEvent ε)) : arrivals events ≠ [] := by
  induction events with
  | nil => simp [arrivals]
  | cons event events ih =>
    cases event with
    | interrupted => exact ih
    | failed e => simp [arrivals]
    | chunk bytes =>
      cases bytes with
      | nil => simp [arrivals]
      | cons b rest =>
        rwa [arrivals_chunk (List.cons_ne_nil b rest), ne_eq, List.modifyHead_eq_nil_iff]

theorem itemsOf_failed {held : Bytes} (h : lineFeed ∉ held) (e : ε)
    (rest : List (Bytes × Stop ε)) :
    itemsOf ((held, .failed e) :: rest) = .error e :: itemsOf rest := by
  simp [itemsOf, itemsAt, Cut.of_free h]

theorem itemsOf_endOfFile {held : Bytes} (h : lineFeed ∉ held) (rest : List (Bytes × Stop ε)) :
    itemsOf ((held, .endOfFile) :: rest) =
      if held = [] then [] else .ok (lineText held) :: itemsOf rest := by
  simp [itemsOf, itemsAt, Cut.of_free h, shown_of_free h]

/-- The lines that have ended can be given before more data comes. -/
theorem itemsOf_append (first second : Bytes) (stop : Stop ε) (rest : List (Bytes × Stop ε)) :
    itemsOf ((first ++ second, stop) :: rest) =
      (finished first).map (.ok ∘ lineText) ++
        itemsOf ((unfinished first ++ second, stop) :: rest) := by
  have hfirst : (Cut.of lineFeed first).ended.map
      (fun line => (.ok (shown (line ++ [lineFeed])) : Except ε Text)) =
      (finished first).map (.ok ∘ lineText) := by
    apply List.map_congr_left
    intro line hline
    rw [shown_concat_feed ((Cut.of lineFeed first).ended_free line hline)]
    rfl
  rw [itemsOf, Cut.of_append, ← hfirst, itemsOf]
  simp only [List.map_append, List.append_assoc]
  rfl

/-- What a reader holds counts as the start of the data that comes next. -/
theorem itemsFrom_eq_itemsOf {held : Bytes} (h : lineFeed ∉ held) (events : List (ReadEvent ε)) :
    itemsFrom held events = itemsOf ((arrivals events).modifyHead (behind held)) := by
  induction events generalizing held with
  | nil => simp [itemsFrom, arrivals, behind, itemsOf_endOfFile h, itemsOf]
  | cons event events ih =>
    have hfresh : itemsFrom [] events = itemsOf (arrivals events) := by
      rw [ih List.not_mem_nil, modifyHead_behind_nil]
    cases event with
    | interrupted => exact ih h
    | failed e => simp [itemsFrom, arrivals, behind, itemsOf_failed h, hfresh]
    | chunk bytes =>
      cases bytes with
      | nil => simp [itemsFrom, arrivals, behind, itemsOf_endOfFile h, hfresh]
      | cons b rest =>
        have hrest : lineFeed ∉ unfinished (held ++ b :: rest) := (Cut.of lineFeed _).rest_free
        obtain ⟨a, others, harrived⟩ := List.exists_cons_of_ne_nil (arrivals_ne_nil events)
        rw [itemsFrom, ih hrest, arrivals_chunk (List.cons_ne_nil b rest), harrived]
        simp only [List.modifyHead_cons, behind]
        rw [← List.append_assoc held, itemsOf_append (held ++ b :: rest)]

theorem items_eq_itemsOf (events : List (ReadEvent ε)) :
    items events = itemsOf (arrivals events) := by
  rw [items, itemsFrom_eq_itemsOf List.not_mem_nil, modifyHead_behind_nil]

end LineReader

end Marginalia
