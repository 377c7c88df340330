import Marginalia.Proofs.Program.OnDisk
import Marginalia.Proofs.Scan.Outcome
/-!
Which files a scan reports on, and what it says of each. The list of them is told without the walk:
a file is there if a scan gets to its directory, lets it in, and can read it by its path.
-/

namespace Marginalia

theorem Disk.readLines_eq_ok_iff {d : Disk} {p : Path} {lines : List Text} :
    (d.ask (Disk.files.readLines p)).1 = .ok lines ↔
      ∃ bytes, d.contents p = .ok bytes ∧ LineReader.linesOf bytes = lines := by
  rw [ask_readLines, mapError_eq_ok_iff, map_eq_ok_iff]

namespace Scan

/-- A file that a scan has to report on if it can be read. All directories from the root down to its
own open, so no link stands on its way. -/
structure Finds (d : Disk) (o : ScanOptions) (root : Path) (n : Node) (directory : Place)
    (name : Name) : Prop where
  enters : Enters d o root n directory
  stands : ∃ mode data, n.at? (directory ++ [name]) = some (.file mode data)
  wanted : Wanted o root (directory ++ [name])

/-- The type that a file's name tells is the one that `analyze` finds if none is given. -/
theorem reportOn_eq (p : Path) (bytes : Bytes) :
    reportOn p bytes =
      Report.ofToken (Command.typeName p none) (LineReader.linesOf bytes) := by
  have htype : FileType.ofPath? p = FileType.ofToken? (Command.typeName p none) := by
    unfold FileType.ofPath? Command.typeName
    cases p.token? with
    | none => decide
    | some token => rfl
  rw [reportOn, htype, Report.ofToken]

section Files

variable {d : Disk} {o : ScanOptions} {root : Path} {start : Place} {n : Node}
  (hroot : d.lookUp root = .ok (start, n)) (hd : d.top.Sound)

theorem comes_iff_finds (hdirectory : n.isDirectory = true) {place : Place} :
    (∃ mode data, Comes d o root n place (.file mode data)) ∧ Wanted o root place ↔
      ∃ directory name, Finds d o root n directory name ∧ place = directory ++ [name] := by
  constructor
  · intro h
    obtain ⟨⟨mode, data, hcomes⟩, hwanted⟩ := h
    rcases List.eq_nil_or_concat' place with rfl | ⟨directory, name, rfl⟩
    · -- The root is a directory and not a file.
      obtain rfl : n = .file mode data := Option.some.inj hcomes.stands
      cases hdirectory
    · exact ⟨directory, name,
        ⟨hcomes.parent directory name rfl, ⟨mode, data, hcomes.stands⟩, hwanted⟩, rfl⟩
  · intro h
    obtain ⟨directory, name, ⟨henters, ⟨mode, data, hat⟩, hwanted⟩, rfl⟩ := h
    obtain ⟨m, es, hparent, hchild⟩ := Node.at?_concat_eq_some_iff.mp hat
    have hcomes := henters.comes_child hparent hchild (fun h => Bool.noConfusion h.2)
    exact ⟨⟨mode, data, hcomes⟩, hwanted⟩

include hroot hd

/-- The reports of a scan are those on the files that it has to find and can read. -/
theorem mem_files_iff (hdirectory : n.isDirectory = true) {path : Path} {r : Report} :
    (path, r) ∈ (summary o root (visits o root 0 true [] n)).files ↔
      ∃ directory name lines, Finds d o root n directory name ∧
        path = Disk.pathBelow root (directory ++ [name]) ∧
        (d.ask (Disk.files.readLines path)).1 = .ok lines ∧
        r = Report.ofToken (Command.typeName path none) lines := by
  simp only [mem_files_summary_iff, file_mem_visits_iff hroot hd, ← and_assoc,
    comes_iff_finds hdirectory, reportOn_eq, Disk.readLines_eq_ok_iff]
  constructor
  · intro h
    obtain ⟨place, bytes, ⟨⟨⟨directory, name, hfinds, rfl⟩, hread⟩, rfl⟩, hreport⟩ := h
    exact ⟨directory, name, _, ⟨⟨hfinds, rfl⟩, bytes, hread, rfl⟩, hreport⟩
  · intro h
    obtain ⟨directory, name, lines, ⟨⟨hfinds, rfl⟩, bytes, hread, rfl⟩, hreport⟩ := h
    exact ⟨_, bytes, ⟨⟨⟨directory, name, hfinds, rfl⟩, hread⟩, rfl⟩, hreport⟩

theorem names_of_mem_sorted {found : Place × Report}
    (h : found ∈ sorted ((visits o root 0 true [] n).filterMap (·.report? root))) :
    ∀ name ∈ found.1, Path.EntryName name := by
  obtain ⟨v, hv, hreport⟩ := List.mem_filterMap.mp (List.mem_mergeSort.mp h)
  obtain ⟨bytes, rfl, _⟩ := Visit.report?_eq_some_iff.mp hreport
  obtain ⟨⟨mode, data, hcomes⟩, _⟩ := (file_mem_visits_iff hroot hd).mp hv
  exact (Disk.sound_of_lookUp hroot hd).names_of_at? hcomes.stands

/-- The order of the places is that of the paths. -/
theorem pairwise_files :
    ((summary o root (visits o root 0 true [] n)).files.map (·.1)).Pairwise Path.Before := by
  have honce : ((visits o root 0 true [] n).map Visit.place).Nodup :=
    nodup_visits (Disk.sound_of_lookUp hroot hd)
  have hplaces := pairwise_sorted (nodup_reports root honce)
  simp only [summary, List.map_map]
  apply List.pairwise_map.mpr
  apply hplaces.imp_of_mem
  intro a b ha hb hlt
  exact Path.before_of_lt (Disk.ne_nil_of_lookUp hroot) (names_of_mem_sorted hroot hd ha)
    (names_of_mem_sorted hroot hd hb) hlt

end Files

end Scan

/-- A scan finds just the files that it has to find and can read, each of them once and in the order
of their paths. It reports on each as `analyze` does when it is given that path. All that is below
the canonical path of the root, which leads to the root if it leads anywhere. -/
theorem Disk.finds_of_survey {d : Disk} (hd : d.top.Sound) {p : Path} {start : Place} {n : Node}
    (hp : d.lookUp p = .ok (start, n)) (hdirectory : n.isDirectory = true) {o : ScanOptions}
    {filespec : Option Text} {s : Summary} (h : d.survey p o filespec = .ok s) :
    let root := d.canonical p
    ∃ pattern, Files.patternOf filespec = .ok pattern ∧
      (∀ found, d.lookUp root = .ok found → found = (start, n)) ∧
      (s.files.map (·.1)).Pairwise Path.Before ∧ (s.files.map (·.1)).Nodup ∧
      ∀ path r, (path, r) ∈ s.files ↔
        ∃ directory name lines, Scan.Finds d { o with pattern } root n directory name ∧
          path = Disk.pathBelow root (directory ++ [name]) ∧
          (d.ask (Disk.files.readLines path)).1 = .ok lines ∧
          r = Report.ofToken (Command.typeName path none) lines := by
  intro root
  cases hpattern : Files.patternOf filespec with
  | error e =>
    rw [survey_of_lookUp hp, hpattern] at h
    cases h
  | ok pattern =>
    rcases lookUp_canonical_or_unfound hd hp with hroot | ⟨_, hunfound⟩
    · have houtcome : (scan { o with pattern } root (.ok n)).outcome = .ok s := by
        rw [survey_of_root hp hroot, hpattern] at h
        exact h
      obtain rfl := Scan.eq_summary_of_outcome houtcome
      have hordered := Scan.pairwise_files (o := { o with pattern }) hroot hd
      refine ⟨pattern, rfl, ?_, hordered, hordered.imp Path.ne_of_before,
        fun path r => Scan.mem_files_iff hroot hd hdirectory⟩
      intro found hfound
      exact Except.ok.inj (hfound.symm.trans hroot)
    · obtain rfl : (⟨[], 1⟩ : Summary) = s := by
        rw [survey_of_unfound hp hd hunfound, hpattern] at h
        exact Except.ok.inj h
      refine ⟨pattern, rfl, fun found hfound => absurd hfound (hunfound found), .nil, .nil, ?_⟩
      intro path r
      constructor
      · intro hmem
        cases hmem
      · intro hfinds
        obtain ⟨_, _, _, ⟨henters, _, _⟩, _⟩ := hfinds
        obtain ⟨found, hfound⟩ := henters.exists_lookUp_root
        exact absurd hfound (hunfound found)

/-- A disk with a source in a directory, and a link to that directory by its absolute path. -/
def Disk.linked : Disk where
  home := [Utf8.encode "w".toList]
  top := .directory 0o755 [(Utf8.encode "w".toList, .directory 0o755 [
    (Utf8.encode "link".toList, .symlink (.ofText "/w/src".toList)),
    (Utf8.encode "src".toList, .directory 0o755 [
      (Utf8.encode "lib.rs".toList, .file 0o644 (Utf8.encode "// TODO\n".toList))])])]

theorem Disk.linked_sound : Disk.linked.top.Sound := by decide

/-- From above the working directory, the source is found and the link is passed over. -/
theorem Disk.finds_of_survey_linked : ∃ s,
    Disk.linked.survey (.ofText "..".toList) {} (some "*.rs".toList) = .ok s ∧
    (Path.ofText "/w/src/lib.rs".toList, Report.ofToken "rs".toList ["// TODO".toList]) ∈
      s.files := by
  have hp : Disk.linked.lookUp (.ofText "..".toList) = .ok ([], Disk.linked.top) := rfl
  have hpattern : Files.patternOf (some "*.rs".toList) =
      .ok (some ⟨[.anyText, .char '.', .char 'r', .char 's']⟩) := by
    decide +kernel
  obtain ⟨s, hs⟩ : ∃ s,
      Disk.linked.survey (.ofText "..".toList) {} (some "*.rs".toList) = .ok s := by
    rw [Disk.survey_of_lookUp hp, hpattern]
    exact ⟨_, rfl⟩
  obtain ⟨pattern, hgiven, _, _, _, hfiles⟩ :=
    Disk.finds_of_survey Disk.linked_sound hp rfl hs
  obtain rfl := Except.ok.inj (hpattern.symm.trans hgiven)
  have hread : Disk.linked.contents (.ofText "/w/src/lib.rs".toList) =
      .ok (Utf8.encode "// TODO\n".toList) := rfl
  refine ⟨s, hs, (hfiles _ _).mpr ⟨[Utf8.encode "w".toList, Utf8.encode "src".toList],
    Utf8.encode "lib.rs".toList, ["// TODO".toList], ⟨⟨?_, by decide, by decide⟩,
      ⟨0o644, _, rfl⟩, ?_⟩, by decide, ?_, by decide⟩⟩
  · intro q hq
    have hlist : q = [] ∨ ∃ rest, q = Utf8.encode "w".toList :: rest ∧
        (rest = [] ∨ rest = [Utf8.encode "src".toList]) := by
      simpa [List.prefix_cons_iff] using hq
    rcases hlist with rfl | ⟨_, rfl, rfl | rfl⟩
    · exact ⟨_, _, rfl, ⟨_, rfl⟩, Scan.isIgnored_eq_false_iff.mp (by decide), by decide⟩
    · exact ⟨_, _, rfl, ⟨_, rfl⟩, Scan.isIgnored_eq_false_iff.mp (by decide), by decide⟩
    · exact ⟨_, _, rfl, ⟨_, rfl⟩, Scan.isIgnored_eq_false_iff.mp (by decide), by decide⟩
  · exact Scan.isWanted_iff.mp (by decide)
  · exact Disk.readLines_eq_ok_iff.mpr ⟨_, hread, by decide⟩

end Marginalia
