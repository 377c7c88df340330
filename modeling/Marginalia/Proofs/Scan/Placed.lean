import Marginalia.Proofs.Scan.Counted
/-!
Where a directory is when it is scanned. Of its path nothing counts but its length, and whether the
directory itself is ignored: what is below it is told apart by names only.
-/

namespace Marginalia

namespace Scan

/-- What a scan comes to, apart from where its root is. -/
structure Yield where
  files : List (Place × Report)
  warnings : Nat

/-- The same with the paths below some root. -/
def Yield.at (y : Yield) (root : Path) : Summary where
  files := y.files.map fun (place, r) => (Disk.pathBelow root place, r)
  warnings := y.warnings

/-- Every entry of the ignore list is a single name. -/
def NamesOnly (o : ScanOptions) : Prop :=
  ∀ entry ∈ o.ignored, ∃ name, (Path.ofText entry).components = [.name name]

/-- Two roots can both be looked up or neither of them, and the paths below one are too long just
where those below the other are. -/
structure SameReach (d other : Disk) (root root' : Path) (n : Node) : Prop where
  found : (∃ found, d.lookUp root = .ok found) ↔ ∃ found, other.lookUp root' = .ok found
  short : ∀ place k, n.at? place = some k →
    ((Disk.pathBelow root place).bytes.length < Walk.pathLimit ↔
      (Disk.pathBelow root' place).bytes.length < Walk.pathLimit)

section Below

variable {o : ScanOptions} {p q : Path} (hp : p.bytes ≠ []) (hq : q.bytes ≠ []) {name : Name}
  (hname : Path.EntryName name)
include hp hq hname

/-- Whether a directory is ignored is a matter of its own name. -/
theorem isIgnored_below (honly : NamesOnly o) :
    isIgnored o (p.below name) = isIgnored o (q.below name) := by
  have hlisted : ∀ entry ∈ o.ignored, (p.below name).endsIn (Path.ofText entry) =
      (q.below name).endsIn (Path.ofText entry) := by
    intro entry hentry
    obtain ⟨other, hother⟩ := honly entry hentry
    rw [Bool.eq_iff_iff, Path.endsIn_below_iff hp hname hother,
      Path.endsIn_below_iff hq hname hother]
  rw [isIgnored, isIgnored, Path.fileName?_below hp hname, Path.fileName?_below hq hname]
  congr 1
  rw [Bool.eq_iff_iff, List.any_eq_true, List.any_eq_true]
  exact exists_congr fun entry => and_congr_right fun hentry => by rw [hlisted entry hentry]

theorem isWanted_below (place : Place) :
    isWanted o p (place ++ [name]) = isWanted o q (place ++ [name]) := by
  rw [isWanted, isWanted, Path.pathBelow_concat, Path.pathBelow_concat,
    Path.fileName?_below (Path.pathBelow_ne_nil hp place) hname,
    Path.fileName?_below (Path.pathBelow_ne_nil hq place) hname]

theorem reportOn_below (bytes : Bytes) :
    reportOn (p.below name) bytes = reportOn (q.below name) bytes := by
  rw [reportOn, reportOn, FileType.ofPath?, FileType.ofPath?, Path.token?_below hp hq hname]

end Below

theorem reached_congr {α : Type} {p q : Path}
    (h : p.bytes.length < Walk.pathLimit ↔ q.bytes.length < Walk.pathLimit) (mayReach : Bool)
    (result : Except SystemError α) : reached p mayReach result = reached q mayReach result := by
  have hlong : p.bytes.length ≥ Walk.pathLimit ↔ q.bytes.length ≥ Walk.pathLimit := by
    omega
  unfold reached
  simp only [hlong]

section Moving

variable {o : ScanOptions} {root root' : Path} (hroot : root.bytes ≠ []) (hroot' : root'.bytes ≠ [])
  (honly : NamesOnly o)
include hroot hroot' honly

/-- The visits to what is below an entry do not depend on where the root is. -/
theorem visits_moved {n : Node} (hn : n.Sound) {place : Place}
    (hignored : isIgnored o (Disk.pathBelow root place) = isIgnored o (Disk.pathBelow root' place))
    (hwanted : n.isDirectory = false → isWanted o root place = isWanted o root' place)
    (hreach : ∀ rest k, n.at? rest = some k →
      ((Disk.pathBelow root (place ++ rest)).bytes.length < Walk.pathLimit ↔
        (Disk.pathBelow root' (place ++ rest)).bytes.length < Walk.pathLimit))
    (depth : Nat) (mayReach : Bool) :
    visits o root depth mayReach place n = visits o root' depth mayReach place n := by
  have hhere := hreach [] n rfl
  rw [List.append_nil] at hhere
  induction n using Node.byEntries generalizing place depth mayReach with
  | file mode data => rw [visits, visits, visitFile, visitFile, hwanted rfl, reached_congr hhere]
  | symlink target => rfl
  | socket mode => rfl
  | directory mode entries ih =>
    have hentries : entries.flatMap (visitEntry o root depth (Mode.maySearch mode) place) =
        entries.flatMap (visitEntry o root' depth (Mode.maySearch mode) place) := by
      apply List.flatMap_congr
      intro entry hentry
      obtain ⟨name, child⟩ := entry
      have hname : Path.EntryName name := hn.names _ hentry
      have hbelow : ∀ rest k, child.at? rest = some k →
          ((Disk.pathBelow root (place ++ [name] ++ rest)).bytes.length < Walk.pathLimit ↔
            (Disk.pathBelow root' (place ++ [name] ++ rest)).bytes.length < Walk.pathLimit) := by
        intro rest k hk
        rw [← List.append_cons]
        apply hreach (name :: rest) k
        rw [Node.at?, hn.lookup_eq_some_iff.mpr hentry]
        exact hk
      have hheeded : isIgnored o (Disk.pathBelow root (place ++ [name])) =
          isIgnored o (Disk.pathBelow root' (place ++ [name])) := by
        rw [Path.pathBelow_concat, Path.pathBelow_concat]
        exact isIgnored_below (Path.pathBelow_ne_nil hroot place)
          (Path.pathBelow_ne_nil hroot' place) hname honly
      have hchild := hbelow [] child rfl
      rw [List.append_nil] at hchild
      rw [visitEntry, visitEntry, ih _ hentry (hn.children _ hentry) hheeded
        (fun _ => isWanted_below hroot hroot' hname place) hbelow _ _ hchild]
    rw [visits, visits, visitsIn_eq_flatMap, visitsIn_eq_flatMap, hentries, hignored,
      reached_congr hhere]

end Moving

section Rooted

variable {d : Disk} {o : ScanOptions} {root root' : Path} {start : Place} {n : Node}
  (hroot : d.lookUp root = .ok (start, n)) (hd : d.top.Sound) (hdirectory : n.isDirectory = true)
  (hroot' : root'.bytes ≠ [])
include hroot hd hdirectory hroot'

theorem report?_moved {v : Visit} (hv : v ∈ visits o root 0 true [] n) :
    v.report? root = v.report? root' := by
  cases v with
  | file place result =>
    cases result with
    | ok bytes =>
      obtain ⟨⟨mode, data, hcomes⟩, _⟩ := (file_mem_visits_iff hroot hd).mp hv
      rcases List.eq_nil_or_concat' place with rfl | ⟨directory, name, rfl⟩
      · rw [Option.some.inj hcomes.stands] at hdirectory
        cases hdirectory
      · have hn := Disk.sound_of_lookUp hroot hd
        have hname := hn.names_of_at? hcomes.stands name (by simp)
        have hne := Disk.ne_nil_of_lookUp hroot
        have hreport := reportOn_below (Path.pathBelow_ne_nil hne directory)
          (Path.pathBelow_ne_nil hroot' directory) hname bytes
        rw [Visit.report?, Visit.report?, Path.pathBelow_concat, Path.pathBelow_concat, hreport]
    | error e => rfl
  | tooDeep place => rfl
  | noMetadata place e => rfl
  | noListing place e => rfl

theorem outcome_moved (honly : NamesOnly o) (hreach : ∀ place k, n.at? place = some k →
      ((Disk.pathBelow root place).bytes.length < Walk.pathLimit ↔
        (Disk.pathBelow root' place).bytes.length < Walk.pathLimit))
    (hignored : isIgnored o root = isIgnored o root') :
    ∃ result : Except Failure Yield, (scan o root (.ok n)).outcome = result.map (·.at root) ∧
      (scan o root' (.ok n)).outcome = result.map (·.at root') := by
  let all := visits o root 0 true [] n
  have hne := Disk.ne_nil_of_lookUp hroot
  have hn := Disk.sound_of_lookUp hroot hd
  have hvisits : visits o root' 0 true [] n = all := by
    refine (@visits_moved o root root' hne hroot' honly n hn [] ?_ ?_ hreach 0 true).symm
    · rw [Path.pathBelow_nil, Path.pathBelow_nil, hignored]
    · intro hflat
      cases hdirectory.symm.trans hflat
  have hreports : all.filterMap (·.report? root) = all.filterMap (·.report? root') :=
    List.filterMap_congr fun v hv => report?_moved hroot hd hdirectory hroot' hv
  have hwarnings : (summary o root all).warnings = (summary o root' all).warnings := by
    rw [warnings_summary, warnings_summary]
  have hsummary : ∃ y : Yield,
      summary o root all = y.at root ∧ summary o root' all = y.at root' := by
    refine ⟨⟨sorted (all.filterMap (·.report? root)), (summary o root all).warnings⟩, rfl, ?_⟩
    rw [hreports, hwarnings]
    rfl
  obtain ⟨y, hhere, hthere⟩ := hsummary
  by_cases hmany : o.maxFiles < all.countP Visit.isFile
  · refine ⟨.error (.tooManyEntries o.maxFiles), ?_, ?_⟩
    · rw [outcome_of_ok, if_pos hmany]
      rfl
    · rw [outcome_of_ok, hvisits, if_pos hmany]
      rfl
  · refine ⟨.ok y, ?_, ?_⟩
    · rw [outcome_of_ok, if_neg hmany, hhere]
      rfl
    · rw [outcome_of_ok, hvisits, if_neg hmany, hthere]
      rfl

end Rooted

/-- Of an ignored root nothing is seen. -/
theorem outcome_of_isIgnored {o : ScanOptions} {root : Path} (hignored : isIgnored o root = true)
    (hshort : root.bytes.length < Walk.pathLimit) {n : Node} (hdirectory : n.isDirectory = true) :
    (scan o root (.ok n)).outcome = .ok ⟨[], 0⟩ := by
  have hvisits : visits o root 0 true [] n = [] := by
    cases n with
    | directory mode entries =>
      rw [visits, Path.pathBelow_nil, reached, if_neg (Nat.not_lt_zero _),
        if_neg (Nat.not_le.mpr hshort), if_pos hignored]
      rfl
    | file mode data => cases hdirectory
    | symlink target => cases hdirectory
    | socket mode => cases hdirectory
  rw [outcome_of_ok, hvisits, List.countP_nil, if_neg (Nat.not_lt_zero _)]
  simp [summary, sorted]

end Scan

/-- A directory can be scanned anywhere: with the same in it, in whatever order it is listed, the
same files are reported on by their ways from it, and there are as many warnings, or the scan fails
as it does elsewhere. But a directory that is itself ignored gives nothing, also as the root of a
scan; so of two places either both must be ignored or neither. -/
theorem Disk.survey_moved {d other : Disk} (hd : d.top.Sound) (hother : other.top.Sound)
    {p q : Path} {start start' : Place} {n m : Node} (hp : d.lookUp p = .ok (start, n))
    (hq : other.lookUp q = .ok (start', m)) (hsame : n.Reordered m)
    (hdirectory : n.isDirectory = true) {o : ScanOptions} (honly : Scan.NamesOnly o)
    (hreach : Scan.SameReach d other (d.canonical p) (other.canonical q) n)
    (filespec : Option Text) :
    let root := d.canonical p
    let root' := other.canonical q
    ((Scan.Ignored o root ↔ Scan.Ignored o root') →
        ∃ result : Except Failure Scan.Yield, d.survey p o filespec = result.map (·.at root) ∧
          other.survey q o filespec = result.map (·.at root')) ∧
      (Scan.Ignored o root → (∃ found, d.lookUp root = .ok found) →
        d.survey p o filespec = (Files.patternOf filespec).map fun _ => ⟨[], 0⟩) := by
  intro root root'
  rcases lookUp_canonical_or_unfound hd hp with hroot | ⟨_, hunfound⟩
  · obtain ⟨⟨stop, k⟩, hfound⟩ := hreach.found.mp ⟨_, hroot⟩
    have hroot' : other.lookUp root' = .ok (start', m) :=
      lookUp_canonical_of_found hother hq hfound
    rw [survey_of_root hp hroot, survey_of_root hq hroot']
    cases Files.patternOf filespec with
    | error e => exact ⟨fun _ => ⟨.error e, rfl, rfl⟩, fun _ _ => rfl⟩
    | ok pattern =>
      have honly' : Scan.NamesOnly { o with pattern } := honly
      constructor
      · intro hiff
        have hignored : Scan.isIgnored { o with pattern } root =
            Scan.isIgnored { o with pattern } root' := by
          rw [Bool.eq_iff_iff, Scan.isIgnored_iff, Scan.isIgnored_iff]
          exact hiff
        obtain ⟨result, hhere, hthere⟩ := Scan.outcome_moved hroot hd hdirectory
          (ne_nil_of_lookUp hroot') honly' hreach.short hignored
        rw [Scan.outcome_reordered _ root' (sound_of_lookUp hp hd) hsame] at hthere
        exact ⟨result, hhere, hthere⟩
      · intro hignored _
        have hgiven : Scan.isIgnored { o with pattern } root = true :=
          Scan.isIgnored_iff.mpr hignored
        obtain ⟨_, hlength, _⟩ := lookUp_eq_ok_iff_leads.mp hroot
        exact Scan.outcome_of_isIgnored hgiven (checkLength_eq_ok_iff.mp hlength).2 hdirectory
  · have hunfound' : ∀ found, other.lookUp root' ≠ .ok found := by
      intro found hfound
      obtain ⟨_, hroot⟩ := hreach.found.mpr ⟨found, hfound⟩
      exact hunfound _ hroot
    rw [survey_of_unfound hp hd hunfound, survey_of_unfound hq hother hunfound']
    refine ⟨fun _ => ⟨(Files.patternOf filespec).map fun _ => ⟨[], 1⟩, ?_, ?_⟩, ?_⟩
    · cases Files.patternOf filespec <;> rfl
    · cases Files.patternOf filespec <;> rfl
    · intro _ hfound
      obtain ⟨found, hroot⟩ := hfound
      exact absurd hroot (hunfound found)

/-- A disk with one directory three times over, once under a name that is ignored. -/
def Disk.copied : Disk where
  home := [Utf8.encode "w".toList]
  top := .directory 0o755 [(Utf8.encode "w".toList, .directory 0o755 [
    (Utf8.encode "bin".toList, .directory 0o755 [
      (Utf8.encode "a.rs".toList, .file 0o644 (Utf8.encode "// TODO\n".toList))]),
    (Utf8.encode "lib".toList, .directory 0o755 [
      (Utf8.encode "a.rs".toList, .file 0o644 (Utf8.encode "// TODO\n".toList))]),
    (Utf8.encode "src".toList, .directory 0o755 [
      (Utf8.encode "a.rs".toList, .file 0o644 (Utf8.encode "// TODO\n".toList))])])]

/-- Of the three copies two give the same file, and the ignored one gives nothing. -/
theorem Disk.survey_moved_copied :
    (∃ y : Scan.Yield, y.files.length = 1 ∧
      Disk.copied.survey (.ofText "lib".toList) {} none = .ok (y.at (.ofText "/w/lib".toList)) ∧
      Disk.copied.survey (.ofText "/w/src".toList) {} none =
        .ok (y.at (.ofText "/w/src".toList))) ∧
    Disk.copied.survey (.ofText "/w/bin".toList) {} none = .ok ⟨[], 0⟩ := by
  let n : Node := .directory 0o755 [
    (Utf8.encode "a.rs".toList, .file 0o644 (Utf8.encode "// TODO\n".toList))]
  let w := Utf8.encode "w".toList
  have hsound : Disk.copied.top.Sound := by decide
  have hlib : Disk.copied.lookUp (.ofText "lib".toList) =
      .ok ([w, Utf8.encode "lib".toList], n) := rfl
  have hsrc : Disk.copied.lookUp (.ofText "/w/src".toList) =
      .ok ([w, Utf8.encode "src".toList], n) := rfl
  have hbin : Disk.copied.lookUp (.ofText "/w/bin".toList) =
      .ok ([w, Utf8.encode "bin".toList], n) := rfl
  have hlibRoot : Disk.copied.canonical (.ofText "lib".toList) = .ofText "/w/lib".toList := rfl
  have hsrcRoot : Disk.copied.canonical (.ofText "/w/src".toList) =
      .ofText "/w/src".toList := rfl
  have hbinRoot : Disk.copied.canonical (.ofText "/w/bin".toList) =
      .ofText "/w/bin".toList := rfl
  have honly : Scan.NamesOnly {} := fun entry hentry => nomatch hentry
  have hreach : Scan.SameReach Disk.copied Disk.copied (.ofText "/w/lib".toList)
      (.ofText "/w/src".toList) n := by
    refine ⟨⟨fun _ => ⟨_, hsrc⟩, fun _ => ⟨_, rfl⟩⟩, ?_⟩
    intro place k hk
    have hnames := (sound_of_lookUp hlib hsound).names_of_at? hk
    have hlength : (Path.ofText "/w/lib".toList).bytes.length =
        (Path.ofText "/w/src".toList).bytes.length := by
      decide
    rw [Path.bytes_pathBelow (by decide) (by decide) hnames,
      Path.bytes_pathBelow (by decide) (by decide) hnames, List.length_append, List.length_append,
      hlength]
  obtain ⟨s, hs, hone⟩ : ∃ s, Disk.copied.survey (.ofText "lib".toList) {} none = .ok s ∧
      s.files.length = 1 := by
    have hvisits : Scan.visits {} (.ofText "/w/lib".toList) 0 true [] n =
        [.file [Utf8.encode "a.rs".toList] (.ok (Utf8.encode "// TODO\n".toList))] := rfl
    have hcount := @Scan.length_files_summary {} (.ofText "/w/lib".toList)
      (Scan.visits {} (.ofText "/w/lib".toList) 0 true [] n)
    have houtcome := Scan.outcome_of_ok {} (.ofText "/w/lib".toList) n
    rw [hvisits] at hcount houtcome
    refine ⟨_, (survey_of_lookUp hlib {} none).trans houtcome, ?_⟩
    simpa [Scan.Visit.isUnread, Scan.Visit.isFile] using hcount
  obtain ⟨hmoved, _⟩ := Disk.survey_moved hsound hsound hlib hsrc (.refl n) rfl honly
    (by rwa [hlibRoot, hsrcRoot]) none
  obtain ⟨_, hnothing⟩ := Disk.survey_moved hsound hsound hbin hbin (.refl n) rfl honly
    ⟨Iff.rfl, fun _ _ _ => Iff.rfl⟩ none
  rw [hlibRoot, hsrcRoot] at hmoved
  rw [hbinRoot] at hnothing
  obtain ⟨result, hhere, hthere⟩ := hmoved (by
    rw [← Scan.isIgnored_iff, ← Scan.isIgnored_iff]
    decide)
  refine ⟨?_, hnothing (Scan.isIgnored_iff.mp (by decide)) ⟨_, hbin⟩⟩
  cases result with
  | error e => cases hs.symm.trans hhere
  | ok y =>
    obtain rfl : s = y.at (.ofText "/w/lib".toList) := Except.ok.inj (hs.symm.trans hhere)
    refine ⟨y, ?_, hhere, hthere⟩
    rwa [Scan.Yield.at, List.length_map] at hone

end Marginalia
