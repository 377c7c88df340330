import Mathlib.Data.List.Induction
import Marginalia.Proofs.Search.Findings
import Marginalia.Proofs.SourceText.Splicing
import Marginalia.Proofs.Text.Decoding
import Marginalia.Proofs.Text.Words
/-!
The lines that are read for looking at a file, and the lines of its source. Both readings cut at the
same places, so the number that a report gives a line is the one a note is put before; only the
returns that a line ends in may differ.
-/

namespace Marginalia

namespace Text

/-- A line without the returns it ends in. -/
def bare (line : Text) : Text := dropEndWhile (· == '\r') line

theorem bare_concat (line : Text) : bare (line ++ ['\r']) = bare line :=
  dropEndWhile_concat rfl line

theorem bare_of_getLast? {line : Text} (h : line.getLast? ≠ some '\r') : bare line = line := by
  apply dropEndWhile_eq_self
  intro c hc
  have hne : c ≠ '\r' := fun e => h (e ▸ hc)
  simpa using hne

/-- Taking one return off first makes no difference. -/
theorem bare_dropReturn (line : Text) : bare (SourceText.dropReturn line) = bare line := by
  by_cases hr : line.getLast? = some '\r'
  · obtain ⟨before, rfl⟩ := List.getLast?_eq_some_iff.mp hr
    rw [SourceText.dropReturn_concat, bare_concat]
  · rw [SourceText.dropReturn_of_getLast? hr]

end Text

namespace LineReader

variable {ε : Type}

/-- A line's text is what is left of its bytes, decoded with the line feed that ends them, when
every return and line feed at the end is taken off. -/
theorem lineText_eq {bytes : Bytes} (h : lineFeed ∉ bytes) :
    Text.dropEndWhile (fun c => c == '\n' || c == '\r')
      (Utf8.decodeLossy (bytes ++ [lineFeed])) = lineText bytes := by
  have hfree := Utf8.feed_not_mem_decodeLossy h
  rw [Utf8.decodeLossy_append_feed]
  have hnil : Utf8.decodeLossy [] = [] := rfl
  rw [hnil, Text.dropEndWhile_concat (by decide), lineText]
  generalize Utf8.decodeLossy bytes = t at hfree
  induction t using List.reverseRecOn with
  | nil => rfl
  | append_singleton t c ih =>
    have hc : c ≠ '\n' := fun e => hfree (by simp [e])
    have ht : '\n' ∉ t := fun hm => hfree (by simp [hm])
    by_cases hr : c = '\r'
    · rw [Text.dropEndWhile_concat (by simp [hr]), Text.dropEndWhile_concat (by simp [hr]), ih ht]
    · rw [Text.dropEndWhile_eq_self (by simp [hc, hr]), Text.dropEndWhile_eq_self (by simp [hr])]

theorem linesOf_eq_stretches (bytes : Bytes) :
    linesOf bytes = (Cut.of lineFeed bytes).stretches.map lineText :=
  rfl

/-- The bytes of lines that have ended can be left behind. -/
theorem linesOf_append (first second : Bytes) :
    linesOf (first ++ second) =
      (finished first).map lineText ++ linesOf (unfinished first ++ second) := by
  rw [linesOf_eq_stretches, linesOf_eq_stretches, Cut.of_append, ← List.map_append]
  congr 1
  simp only [Cut.stretches, List.append_assoc]
  rfl

theorem linesOf_of_free {bytes : Bytes} (h : lineFeed ∉ bytes) :
    linesOf bytes = if bytes = [] then [] else [lineText bytes] := by
  rw [linesOf_eq_stretches, Cut.of_free h]
  by_cases hb : bytes = []
  · simp [Cut.stretches, hb]
  · simp [Cut.stretches, hb]

theorem itemsFrom_chunks {held : Bytes} (hheld : lineFeed ∉ held) {chunks : List Bytes}
    (hchunks : [] ∉ chunks) :
    itemsFrom held (chunks.map (ReadEvent.chunk : Bytes → ReadEvent ε)) =
      (linesOf (held ++ chunks.flatten)).map .ok := by
  induction chunks generalizing held with
  | nil =>
    simp only [List.map_nil, List.flatten_nil, List.append_nil, itemsFrom, linesOf_of_free hheld]
    split
    · rfl
    · rfl
  | cons chunk chunks ih =>
    have hrest : [] ∉ chunks := fun hm => hchunks (List.mem_cons_of_mem chunk hm)
    cases chunk with
    | nil => exact absurd List.mem_cons_self hchunks
    | cons b rest =>
      have hfree : lineFeed ∉ unfinished (held ++ b :: rest) := (Cut.of lineFeed _).rest_free
      rw [List.map_cons, itemsFrom, ih hfree hrest, List.flatten_cons, ← List.append_assoc,
        linesOf_append (held ++ b :: rest), List.map_append, List.map_map]

/-- However a file's bytes arrive, the reader gives its lines. -/
theorem items_chunks {chunks : List Bytes} (h : [] ∉ chunks) :
    items (chunks.map (ReadEvent.chunk : Bytes → ReadEvent ε)) =
      (linesOf chunks.flatten).map .ok :=
  itemsFrom_chunks List.not_mem_nil h

theorem linesOf_eq_parse (bytes : Bytes) :
    linesOf bytes = (SourceText.parse (Utf8.decodeLossy bytes)).lines.map Text.bare := by
  obtain ⟨c, rfl⟩ := Cut.exists_join lineFeed bytes
  rw [← Utf8.join_decodeCut, SourceText.parse_join, Utf8.stretches_decodeCut, linesOf_eq_stretches,
    Cut.of_join, List.map_map, List.map_map]
  apply List.map_congr_left
  intro stretch _
  exact (Text.bare_dropReturn (Utf8.decodeLossy stretch)).symm

theorem length_linesOf (bytes : Bytes) :
    (linesOf bytes).length = (SourceText.parse (Utf8.decodeLossy bytes)).lines.length := by
  rw [linesOf_eq_parse, List.length_map]

end LineReader

/-- A number and a line that are shown together name a line of the source: notes can be put before
the line of that number, and it is the line shown, but for the returns it ends in. -/
structure SourceText.Names (s : SourceText) (number : Nat) (line : Text) : Prop where
  positive : 0 < number
  same : ∃ own, s.lines[number - 1]? = some own ∧ line = Text.bare own
  valid : ∀ r : Request, r.line = number → FileType.ofToken? r.fileType ≠ none →
    ∃ t, s.annotate r = .ok t

namespace LineReader

/-- Every numbered line that is read names a line of the source. -/
theorem names_of_mem_zipIdx {bytes : Bytes} {line : Text} {number : Nat}
    (h : (line, number) ∈ (linesOf bytes).zipIdx 1) :
    (SourceText.parse (Utf8.decodeLossy bytes)).Names number line := by
  obtain ⟨hpos, hget⟩ := List.mk_mem_zipIdx_iff_le_and_getElem?_sub.mp h
  have hlt : number - 1 < (linesOf bytes).length := (List.getElem?_eq_some_iff.mp hget).1
  rw [length_linesOf] at hlt
  rw [linesOf_eq_parse, List.getElem?_map, Option.map_eq_some_iff] at hget
  obtain ⟨own, hown, he⟩ := hget
  refine ⟨hpos, ⟨own, hown, he.symm⟩, ?_⟩
  intro r hr htype
  obtain ⟨f, hf⟩ := Option.ne_none_iff_exists'.mp htype
  exact ⟨_, SourceText.annotate_eq_ok (SourceText.format_of_ofToken? hf r.kind r.note) (by omega)
    (by omega)⟩

theorem mem_zipIdx_of_sighting {f : Option FileType} {lines : List Text} {x : Sighting}
    (h : x ∈ (Report.ofLines f lines).sightings) : (x.text, x.line) ∈ lines.zipIdx 1 := by
  obtain ⟨line, hline, hx⟩ := Account.exists_of_mem_told (a := (CommentRule.ofType f).account) h
  obtain ⟨m, _, he⟩ := List.mem_map.mp hx
  obtain rfl : line = x.text := congrArg Sighting.text he
  exact hline

theorem mem_zipIdx_of_hit {term : Text} {lines : List Text} {hit : Hit}
    (h : hit ∈ Search.hitsFrom term 1 lines) :
    ∃ line, (line, hit.line) ∈ lines.zipIdx 1 ∧ hit.count = Search.occurrences term line := by
  obtain ⟨line, hline, hx⟩ := Account.exists_of_mem_told (a := Search.account term) h
  obtain ⟨he, _⟩ := Search.mem_hitsAt_iff.mp hx
  exact ⟨line, hline, congrArg Hit.count he⟩

/-- The lines that are read from a file, in whatever chunks it arrives, are the lines of the source
that its bytes decode to, without the returns they end in. So every line number that a report or a
search shows is a number that a note can be given, and means the same line there. -/
theorem items_eq_parse_lines {chunks : List Bytes} (h : [] ∉ chunks) :
    let bytes := chunks.flatten
    let s := SourceText.parse (Utf8.decodeLossy bytes)
    items (chunks.map (ReadEvent.chunk : Bytes → ReadEvent ε)) = (s.lines.map Text.bare).map .ok ∧
      linesOf bytes = s.lines.map Text.bare ∧
      ∀ content, Utf8.decode? bytes = some content →
        s = .parse content ∧
        (∀ f, ∀ x ∈ (Report.ofLines f (linesOf bytes)).sightings, s.Names x.line x.text) ∧
        ∀ term found, search (linesOf bytes) term = .ok found →
          ∀ hit ∈ found.hits, ∃ line, s.Names hit.line line ∧
            hit.count = Search.occurrences term line := by
  intro bytes s
  have hlines : linesOf bytes = s.lines.map Text.bare := linesOf_eq_parse bytes
  refine ⟨?_, hlines, ?_⟩
  · rw [items_chunks h]
    exact congrArg (List.map Except.ok) hlines
  intro content hcontent
  refine ⟨congrArg SourceText.parse (Utf8.decodeLossy_of_decode? hcontent), ?_, ?_⟩
  · intro f x hx
    exact names_of_mem_zipIdx (mem_zipIdx_of_sighting hx)
  · intro term found hfound hit hhit
    simp only [search] at hfound
    split at hfound
    · cases hfound
    · cases hfound
      obtain ⟨line, hline, hcount⟩ := mem_zipIdx_of_hit hhit
      exact ⟨line, names_of_mem_zipIdx hline, hcount⟩

/-- A character that two chunks share, and a line that ends in two returns. -/
theorem items_eq_parse_lines_split_character :
    let chunks : List Bytes := [[0x23, 0x20, 0xC3], [0xA9, 0x0D, 0x0D, 0x0A, 0x78]]
    let bytes := chunks.flatten
    [] ∉ chunks ∧
      items (chunks.map (ReadEvent.chunk : Bytes → ReadEvent Unit)) =
        [.ok "# é".toList, .ok "x".toList] ∧
      (SourceText.parse (Utf8.decodeLossy bytes)).lines = ["# é\r".toList, "x".toList] ∧
      ∃ line, (SourceText.parse "# é\r\r\nx".toList).Names 2 line := by
  intro chunks bytes
  have hchunks : [] ∉ chunks := by decide
  have hsource : (SourceText.parse (Utf8.decodeLossy bytes)).lines =
      ["# é\r".toList, "x".toList] := by decide
  obtain ⟨hitems, _, hnumbers⟩ := items_eq_parse_lines (ε := Unit) hchunks
  obtain ⟨hs, _, hsearch⟩ := hnumbers "# é\r\r\nx".toList (by decide)
  obtain ⟨line, hline, _⟩ := hsearch ['x'] ⟨['x'], [⟨2, 1⟩]⟩ (by decide) ⟨2, 1⟩ (by decide)
  refine ⟨hchunks, hitems.trans ?_, hsource, line, hs ▸ hline⟩
  rw [hsource]
  decide

end LineReader

end Marginalia
