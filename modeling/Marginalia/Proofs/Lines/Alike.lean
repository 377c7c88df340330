import Marginalia.Proofs.Insertion.Noted
import Marginalia.Proofs.LineReader.Numbering
import Marginalia.Proofs.Results
/-!
Lines that are alike but for the blanks around them. A report does not tell them apart. The two ways
of reading a file differ in the returns that they leave at the ends of lines and in nothing else, so
no report depends on how the file was read.
-/

namespace Marginalia

/-- Reports that tell the same and are printed alike, although the lines that they quote may have
been indented differently. -/
structure Report.Agrees (r s : Report) : Prop where
  fileType : r.fileType = s.fileType
  counts : r.counts = s.counts
  places : r.sightings.map (fun x => (x.marker, x.line)) =
    s.sightings.map (fun x => (x.marker, x.line))
  rendered : r.render = s.render

theorem Report.agrees_of_alike (token : Text) {first second : List Text}
    (h : List.Forall₂ Text.Alike first second) :
    (Report.ofToken token first).Agrees (Report.ofToken token second) := by
  have hcounts : (Report.ofToken token first).counts = (Report.ofToken token second).counts :=
    CommentRule.countLines_congr h
  have hrows : (Report.ofToken token first).sightings.map sightingText =
      (Report.ofToken token second).sightings.map sightingText := by
    apply CommentRule.map_told_congr _ h
    intro m n s t hst
    rw [sightingText, sightingText, hst]
  have hheading : (Report.ofToken token first).heading = (Report.ofToken token second).heading := by
    rw [heading, hcounts]
    rfl
  refine ⟨rfl, hcounts, CommentRule.map_told_congr (fun _ _ _ _ _ => rfl) h 1, ?_⟩
  rw [render, render, hheading, List.flatMap_def, List.flatMap_def, hrows]

section Readings
variable {ε : Type}

theorem LineReader.readLines_chunks {chunks : List Bytes} (h : [] ∉ chunks) :
    readLines (chunks.map (ReadEvent.chunk : Bytes → ReadEvent ε)) = .ok (linesOf chunks.flatten) :=
  mapM_id_eq_ok_iff.mpr (items_chunks h)

/-- A report does not depend on the blanks around lines: neither what it counts nor where it sights
markers nor how it is printed. So it does not matter either whether the lines of a file were read
for looking at it or for writing it back, and a search for a term without returns does not tell the
difference. -/
theorem readings_alike (token : Text) :
    (∀ first second : List Text, List.Forall₂ Text.Alike first second →
      (Report.ofToken token first).Agrees (Report.ofToken token second)) ∧
    ∀ (chunks : List Bytes) (content : Text), [] ∉ chunks →
      Utf8.decode? chunks.flatten = some content →
      ∃ read, LineReader.readLines (chunks.map (ReadEvent.chunk : Bytes → ReadEvent ε)) = .ok read ∧
        (Report.ofToken token read).Agrees
          (Report.ofToken token (SourceText.parse content).lines) ∧
        ∀ term, term ≠ [] → '\r' ∉ term →
          search read term = search (SourceText.parse content).lines term := by
  refine ⟨fun _ _ h => Report.agrees_of_alike token h, ?_⟩
  intro chunks content hchunks hcontent
  have hread : LineReader.linesOf chunks.flatten =
      (SourceText.parse content).lines.map Text.bare := by
    rw [LineReader.linesOf_eq_parse, Utf8.decodeLossy_of_decode? hcontent]
  refine ⟨_, LineReader.readLines_chunks hchunks, ?_, ?_⟩
  · rw [hread]
    apply Report.agrees_of_alike
    rw [List.forall₂_map_left_iff, List.forall₂_same]
    intro line _
    exact Text.trim_bare line
  · intro term hterm hfree
    rw [hread]
    apply Search.search_congr hterm
    rw [List.forall₂_map_left_iff, List.forall₂_same]
    intro line _
    apply Search.occurrences_dropEndWhile hterm
    intro c hc
    have hne : c ≠ '\r' := fun he => hfree (he ▸ hc)
    simpa using hne

/-- Lines that are indented differently; and a line that ends in two returns, of which one is left
when the file is read for writing it back, and none when it is read for looking at it. -/
theorem readings_alike_indented :
    let first := ["  # TODO x\t", "", "y = 1"].map String.toList
    let second := ["# TODO x", " ", "\ty = 1"].map String.toList
    let chunks := [Utf8.encode "# TODO x\r".toList, Utf8.encode "\r\ny".toList]
    let content := "# TODO x\r\r\ny".toList
    List.Forall₂ Text.Alike first second ∧
      (Report.ofToken "py".toList first).render = (Report.ofToken "py".toList second).render ∧
      [] ∉ chunks ∧ Utf8.decode? chunks.flatten = some content ∧
      (SourceText.parse content).lines = ["# TODO x\r".toList, "y".toList] ∧
      LineReader.readLines (chunks.map (ReadEvent.chunk : Bytes → ReadEvent Unit)) =
        .ok ["# TODO x".toList, "y".toList] ∧
      "TODO".toList ≠ [] ∧ '\r' ∉ "TODO".toList ∧
      search ["# TODO x".toList, "y".toList] "TODO".toList =
        search ["# TODO x\r".toList, "y".toList] "TODO".toList := by
  intro first second chunks content
  have hlines : List.Forall₂ Text.Alike first second := .cons rfl (.cons rfl (.cons rfl .nil))
  have hchunks : [] ∉ chunks := by decide
  have hcontent : Utf8.decode? chunks.flatten = some content := rfl
  have hterm : "TODO".toList ≠ [] := nofun
  have hfree : '\r' ∉ "TODO".toList := by decide
  have hparse : (SourceText.parse content).lines = ["# TODO x\r".toList, "y".toList] := rfl
  obtain ⟨hreport, hreadings⟩ := @readings_alike Unit "py".toList
  obtain ⟨read, hread, _, hsearch⟩ := hreadings chunks content hchunks hcontent
  obtain rfl : read = ["# TODO x".toList, "y".toList] :=
    Except.ok.inj (hread.symm.trans rfl)
  have hfound := hsearch "TODO".toList hterm hfree
  rw [hparse] at hfound
  exact ⟨hlines, (hreport first second hlines).rendered, hchunks, hcontent, hparse, hread, hterm,
    hfree, hfound⟩

end Readings

end Marginalia
