import Mathlib.Data.Set.Card
import Marginalia.Proofs.Scan.Outcome
import Marginalia.Proofs.Tree.Reordered
/-!
The numbers of a scan are the sizes of sets that say nothing about how it walks, and nothing of what
it comes to depends on the order in which directories are listed.
-/

namespace Marginalia

namespace Scan

theorem visits_directory_perm {o : ScanOptions} {root : Path} {mode : Nat} {place : Place}
    {entries others : List (Name × Node)} {depth : Nat}
    (h : (entries.flatMap (visitEntry o root depth (Mode.maySearch mode) place)).Perm
      (others.flatMap (visitEntry o root depth (Mode.maySearch mode) place))) (mayReach : Bool) :
    (visits o root depth mayReach place (.directory mode entries)).Perm
      (visits o root depth mayReach place (.directory mode others)) := by
  rcases visits_listing o root depth mayReach place mode with ⟨vs, _, hall⟩ | hall
  · rw [hall, hall]
  · rwa [hall, hall]

/-- The same tree in another order gives the same visits in another order. -/
theorem visits_reordered {k m : Node} (h : k.Reordered m) (o : ScanOptions) (root : Path)
    (depth : Nat) (mayReach : Bool) (place : Place) :
    (visits o root depth mayReach place k).Perm (visits o root depth mayReach place m) := by
  induction h generalizing depth mayReach place with
  | refl n => exact List.Perm.refl _
  | entry mode before name after h ih =>
    apply visits_directory_perm
    simp only [List.flatMap_append, List.flatMap_cons, visitEntry, h.isDirectory_eq]
    refine List.Perm.append_left _ (List.Perm.append_right _ ?_)
    split
    · exact List.Perm.refl _
    · exact ih _ _ _
  | listing mode h => exact visits_directory_perm (h.flatMap_right _) mayReach
  | trans _ _ ih ih' => exact (ih depth mayReach place).trans (ih' depth mayReach place)

theorem outcome_reordered (o : ScanOptions) (root : Path) {n m : Node} (hn : n.Sound)
    (h : n.Reordered m) : (scan o root (.ok n)).outcome = (scan o root (.ok m)).outcome := by
  have hperm := visits_reordered h o root 0 true []
  have hfiles : summary o root (visits o root 0 true [] n) =
      summary o root (visits o root 0 true [] m) := by
    have hreports := hperm.filterMap (·.report? root)
    have hwarnings := (hperm.filterMap (·.warning? o root)).length_eq
    rw [summary, summary, sorted_eq_of_perm hreports (nodup_reports root (nodup_visits hn)),
      hwarnings]
  simp only [outcome_of_ok, hperm.countP_eq, hfiles]

section Sets

variable (d : Disk) (o : ScanOptions) (root : Path) (n : Node)

/-- The files that a scan comes upon and lets in. -/
def wantedFiles : Set Place :=
  {place | (∃ mode data, Comes d o root n place (.file mode data)) ∧ Wanted o root place}

/-- Those of them that cannot be read by their path. -/
def unreadFiles : Set Place :=
  {place | place ∈ wantedFiles d o root n ∧
    ∃ e, d.contents (Disk.pathBelow root place) = .error e}

/-- The directories that a scan comes upon. -/
def directories : Set Place :=
  {place | ∃ mode entries, Comes d o root n place (.directory mode entries)}

def deepDirectories : Set Place :=
  {place | place ∈ directories d o root n ∧ place.length = o.maxDepth + 1}

/-- Directories whose path leads nowhere: nothing can be learned of them. -/
def unseenDirectories : Set Place :=
  {place | place ∈ directories d o root n ∧ place.length ≤ o.maxDepth ∧
    ∃ e, d.lookUp (Disk.pathBelow root place) = .error e}

/-- Directories that a scan sees and does not ignore, and may not list. One that cannot even be
looked up is unseen, and is not counted here once more. -/
def unlistedDirectories : Set Place :=
  {place | place.length ≤ o.maxDepth ∧ ¬ Ignored o (Disk.pathBelow root place) ∧
    ∃ mode entries, Comes d o root n place (.directory mode entries) ∧
      (∃ found, d.lookUp (Disk.pathBelow root place) = .ok found) ∧ Mode.mayRead mode = false}

end Sets

/-- Visits to places that are all different are counted by the set of these. -/
theorem encard_eq_countP {vs : List Visit} (honce : (vs.map Visit.place).Nodup)
    (kind : Visit → Bool) {places : Set Place}
    (h : ∀ place, place ∈ places ↔ ∃ v ∈ vs, kind v = true ∧ v.place = place) :
    places.encard = vs.countP kind := by
  have hnodup : ((vs.filter kind).map Visit.place).Nodup :=
    honce.sublist (List.filter_sublist.map _)
  have hset : places = ((vs.filter kind).map Visit.place).toFinset := by
    ext place
    rw [h]
    simp [and_assoc]
  rw [hset, Set.encard_coe_eq_coe_finsetCard, List.toFinset_card_of_nodup hnodup, List.length_map,
    List.countP_eq_length_filter]

section Counting

variable {d : Disk} {o : ScanOptions} {root : Path} {start : Place} {n : Node}
  (hroot : d.lookUp root = .ok (start, n)) (hd : d.top.Sound)
include hroot hd

theorem encard_wantedFiles :
    (wantedFiles d o root n).encard = (visits o root 0 true [] n).countP Visit.isFile := by
  apply encard_eq_countP (nodup_visits (Disk.sound_of_lookUp hroot hd))
  intro place
  constructor
  · intro h
    obtain ⟨⟨mode, data, hcomes⟩, hwanted⟩ := h
    exact ⟨.file place _, (file_mem_visits_iff hroot hd).mpr
      ⟨⟨mode, data, hcomes⟩, hwanted, contents_eq_reached hroot hd hcomes.stands⟩, rfl, rfl⟩
  · intro h
    obtain ⟨v, hv, hkind, rfl⟩ := h
    obtain ⟨other, result, rfl⟩ := Visit.isFile_iff.mp hkind
    obtain ⟨hcomes, hwanted, _⟩ := (file_mem_visits_iff hroot hd).mp hv
    exact ⟨hcomes, hwanted⟩

theorem encard_unreadFiles :
    (unreadFiles d o root n).encard = (visits o root 0 true [] n).countP Visit.isUnread := by
  apply encard_eq_countP (nodup_visits (Disk.sound_of_lookUp hroot hd))
  intro place
  constructor
  · intro h
    obtain ⟨⟨⟨mode, data, hcomes⟩, hwanted⟩, fault, hread⟩ := h
    have hcontents := contents_eq_reached hroot hd hcomes.stands
    obtain ⟨e, _, rfl⟩ := mapError_eq_error_iff.mp (hcontents.symm.trans hread)
    exact ⟨.file place (.error e), (file_mem_visits_iff hroot hd).mpr
      ⟨⟨mode, data, hcomes⟩, hwanted, hread⟩, rfl, rfl⟩
  · intro h
    obtain ⟨v, hv, hkind, rfl⟩ := h
    obtain ⟨other, e, rfl⟩ := Visit.isUnread_iff.mp hkind
    obtain ⟨hcomes, hwanted, hread⟩ := (file_mem_visits_iff hroot hd).mp hv
    exact ⟨⟨hcomes, hwanted⟩, _, hread⟩

omit hroot hd in
theorem Comes.length_le {place : Place} {k : Node} (h : Comes d o root n place k) :
    place.length ≤ o.maxDepth + 1 := by
  rcases List.eq_nil_or_concat' place with rfl | ⟨directory, name, rfl⟩
  · exact Nat.zero_le _
  · have hshallow := (h.parent directory name rfl).shallow
    rw [List.length_append, List.length_singleton]
    exact Nat.succ_le_succ hshallow

theorem tooDeep_mem_visits_iff {place : Place} :
    .tooDeep place ∈ visits o root 0 true [] n ↔ place ∈ deepDirectories d o root n := by
  rw [mem_visits_iff_directory hroot hd (by simp)]
  constructor
  · intro h
    obtain ⟨mode, entries, hcomes, hv⟩ := h
    have hdeep : o.maxDepth < place.length := by
      simpa [Visit.place] using (mem_visitsAt_directory_iff hroot hd hcomes.stands).mp hv
    exact ⟨⟨mode, entries, hcomes⟩, Nat.le_antisymm hcomes.length_le hdeep⟩
  · intro h
    obtain ⟨⟨mode, entries, hcomes⟩, hdeep⟩ := h
    refine ⟨mode, entries, hcomes, ?_⟩
    exact (mem_visitsAt_directory_iff hroot hd hcomes.stands).mpr
      (Or.inl ⟨rfl, hdeep ▸ Nat.lt_succ_self _⟩)

theorem noMetadata_mem_visits_iff {place : Place} {e : SystemError} :
    .noMetadata place e ∈ visits o root 0 true [] n ↔
      place ∈ directories d o root n ∧ place.length ≤ o.maxDepth ∧
        d.lookUp (Disk.pathBelow root place) = .error (.system e) := by
  rw [mem_visits_iff_directory hroot hd (by simp)]
  constructor
  · intro h
    obtain ⟨mode, entries, hcomes, hv⟩ := h
    rcases (mem_visitsAt_directory_iff hroot hd hcomes.stands).mp hv with
      ⟨he, _⟩ | ⟨_, he, hunseen⟩ | ⟨he, _⟩
    · cases he
    · obtain ⟨_, rfl⟩ := Visit.noMetadata.inj he
      exact ⟨⟨mode, entries, hcomes⟩, hunseen⟩
    · cases he
  · intro h
    obtain ⟨⟨mode, entries, hcomes⟩, hshallow, hlook⟩ := h
    refine ⟨mode, entries, hcomes, ?_⟩
    exact (mem_visitsAt_directory_iff hroot hd hcomes.stands).mpr
      (Or.inr (Or.inl ⟨e, rfl, hshallow, hlook⟩))

/-- What keeps a directory from being looked up is the system. -/
theorem exists_noMetadata_iff {place : Place} :
    place ∈ unseenDirectories d o root n ↔
      ∃ e, .noMetadata place e ∈ visits o root 0 true [] n := by
  simp only [noMetadata_mem_visits_iff hroot hd]
  constructor
  · intro h
    obtain ⟨⟨mode, entries, hcomes⟩, hshallow, fault, hlook⟩ := h
    have heq := lookUp_eq_reached hroot hd hcomes.stands rfl
    obtain ⟨e, _, rfl⟩ := mapError_eq_error_iff.mp (heq.symm.trans hlook)
    exact ⟨e, ⟨mode, entries, hcomes⟩, hshallow, hlook⟩
  · intro h
    obtain ⟨e, hdirectory, hshallow, hlook⟩ := h
    exact ⟨hdirectory, hshallow, _, hlook⟩

theorem noListing_mem_visits_iff {place : Place} {e : SystemError} :
    .noListing place e ∈ visits o root 0 true [] n ↔
      e = .denied ∧ place ∈ unlistedDirectories d o root n := by
  rw [mem_visits_iff_directory hroot hd (by simp)]
  constructor
  · intro h
    obtain ⟨mode, entries, hcomes, hv⟩ := h
    rcases (mem_visitsAt_directory_iff hroot hd hcomes.stands).mp hv with
      ⟨he, _⟩ | ⟨_, he, _⟩ | ⟨he, hshallow, hlook, hheeded, hread⟩
    · cases he
    · cases he
    · exact ⟨(Visit.noListing.inj he).2, hshallow, hheeded, mode, entries, hcomes, hlook, hread⟩
  · intro h
    obtain ⟨rfl, hshallow, hheeded, mode, entries, hcomes, hlook, hread⟩ := h
    refine ⟨mode, entries, hcomes, ?_⟩
    exact (mem_visitsAt_directory_iff hroot hd hcomes.stands).mpr
      (Or.inr (Or.inr ⟨rfl, hshallow, hlook, hheeded, hread⟩))

theorem encard_deepDirectories :
    (deepDirectories d o root n).encard = (visits o root 0 true [] n).countP Visit.isTooDeep := by
  apply encard_eq_countP (nodup_visits (Disk.sound_of_lookUp hroot hd))
  intro place
  constructor
  · intro hplace
    exact ⟨.tooDeep place, (tooDeep_mem_visits_iff hroot hd).mpr hplace, rfl, rfl⟩
  · intro h
    obtain ⟨v, hv, hkind, rfl⟩ := h
    obtain ⟨other, rfl⟩ := Visit.isTooDeep_iff.mp hkind
    exact (tooDeep_mem_visits_iff hroot hd).mp hv

theorem encard_unseenDirectories :
    (unseenDirectories d o root n).encard =
      (visits o root 0 true [] n).countP Visit.isUnseen := by
  apply encard_eq_countP (nodup_visits (Disk.sound_of_lookUp hroot hd))
  intro place
  rw [exists_noMetadata_iff hroot hd]
  constructor
  · intro h
    obtain ⟨e, hvisit⟩ := h
    exact ⟨.noMetadata place e, hvisit, rfl, rfl⟩
  · intro h
    obtain ⟨v, hv, hkind, rfl⟩ := h
    obtain ⟨other, e, rfl⟩ := Visit.isUnseen_iff.mp hkind
    exact ⟨e, hv⟩

theorem encard_unlistedDirectories :
    (unlistedDirectories d o root n).encard =
      (visits o root 0 true [] n).countP Visit.isUnlisted := by
  apply encard_eq_countP (nodup_visits (Disk.sound_of_lookUp hroot hd))
  intro place
  constructor
  · intro hplace
    exact ⟨.noListing place .denied, (noListing_mem_visits_iff hroot hd).mpr ⟨rfl, hplace⟩, rfl,
      rfl⟩
  · intro h
    obtain ⟨v, hv, hkind, rfl⟩ := h
    obtain ⟨other, e, rfl⟩ := Visit.isUnlisted_iff.mp hkind
    exact ((noListing_mem_visits_iff hroot hd).mp hv).2

theorem exceeds_iff :
    (scan o root (.ok n)).outcome = .error (.tooManyEntries o.maxFiles) ↔
      (o.maxFiles : ℕ∞) < (wantedFiles d o root n).encard := by
  rw [outcome_of_ok, encard_wantedFiles hroot hd, Nat.cast_lt]
  by_cases h : o.maxFiles < (visits o root 0 true [] n).countP Visit.isFile
  · simp [h]
  · simp [h]

theorem counts_of_within (h : (wantedFiles d o root n).encard ≤ o.maxFiles) :
    ∃ s, (scan o root (.ok n)).outcome = .ok s ∧
      (s.warnings : ℕ∞) =
        (unreadFiles d o root n).encard + (deepDirectories d o root n).encard +
          (unseenDirectories d o root n).encard + (unlistedDirectories d o root n).encard ∧
      (s.files.length : ℕ∞) + (unreadFiles d o root n).encard =
        (wantedFiles d o root n).encard := by
  rw [encard_wantedFiles hroot hd, Nat.cast_le] at h
  rw [outcome_of_ok, if_neg (Nat.not_lt.mpr h), encard_wantedFiles hroot hd,
    encard_unreadFiles hroot hd, encard_deepDirectories hroot hd, encard_unseenDirectories hroot hd,
    encard_unlistedDirectories hroot hd]
  refine ⟨_, rfl, ?_, ?_⟩
  · exact_mod_cast warnings_summary
  · exact_mod_cast length_files_summary

end Counting

section Unfound

variable {d : Disk} {o : ScanOptions} {root : Path} {n : Node}
  (hroot : ∀ found, d.lookUp root ≠ .ok found)
include hroot

/-- A scan comes upon nothing below its root, if that cannot be looked up. -/
theorem not_comes_of_unfound {directory : Place} {name : Name} {k : Node} :
    ¬ Comes d o root n (directory ++ [name]) k := by
  intro h
  obtain ⟨found, hfound⟩ := (h.parent directory name rfl).exists_lookUp_root
  exact hroot found hfound

theorem comes_iff_of_unfound {place : Place} {k : Node} :
    Comes d o root n place k ↔ place = [] ∧ k = n := by
  constructor
  · intro h
    rcases List.eq_nil_or_concat' place with rfl | ⟨directory, name, rfl⟩
    · exact ⟨rfl, (Option.some.inj h.stands).symm⟩
    · exact absurd h (not_comes_of_unfound hroot)
  · intro h
    obtain ⟨rfl, rfl⟩ := h
    exact comes_root

theorem encard_of_unfound (hdirectory : n.isDirectory = true) :
    (wantedFiles d o root n).encard = 0 ∧ (unreadFiles d o root n).encard = 0 ∧
      (deepDirectories d o root n).encard = 0 ∧ (unseenDirectories d o root n).encard = 1 ∧
      (unlistedDirectories d o root n).encard = 0 := by
  have hwanted : wantedFiles d o root n = ∅ := by
    ext place
    simp only [wantedFiles, comes_iff_of_unfound hroot, Set.mem_ofPred_eq, Set.mem_empty_iff_false,
      iff_false]
    intro h
    obtain ⟨⟨mode, data, _, rfl⟩, _⟩ := h
    cases hdirectory
  have hunseen : unseenDirectories d o root n = {[]} := by
    ext place
    simp only [unseenDirectories, directories, comes_iff_of_unfound hroot, Set.mem_ofPred_eq,
      Set.mem_singleton_iff]
    constructor
    · intro h
      obtain ⟨⟨_, _, hplace, _⟩, _⟩ := h
      exact hplace
    · intro h
      subst h
      cases n with
      | directory mode entries =>
        refine ⟨⟨mode, entries, rfl, rfl⟩, Nat.zero_le _, ?_⟩
        cases hlook : d.lookUp (Disk.pathBelow root []) with
        | error e => exact ⟨e, rfl⟩
        | ok found => exact absurd hlook (hroot found)
      | file mode data => cases hdirectory
      | symlink target => cases hdirectory
      | socket mode => cases hdirectory
  have hunread : unreadFiles d o root n = ∅ := by
    simp [unreadFiles, hwanted]
  have hdeep : deepDirectories d o root n = ∅ := by
    ext place
    simp only [deepDirectories, directories, comes_iff_of_unfound hroot, Set.mem_ofPred_eq,
      Set.mem_empty_iff_false, iff_false]
    intro h
    obtain ⟨⟨_, _, rfl, _⟩, hlength⟩ := h
    cases hlength
  have hunlisted : unlistedDirectories d o root n = ∅ := by
    ext place
    simp only [unlistedDirectories, comes_iff_of_unfound hroot, Set.mem_ofPred_eq,
      Set.mem_empty_iff_false, iff_false]
    intro h
    obtain ⟨_, _, _, _, ⟨rfl, _⟩, ⟨found, hfound⟩, _⟩ := h
    exact hroot found hfound
  simp [hwanted, hunread, hdeep, hunseen, hunlisted]

end Unfound

end Scan

/-- A scan comes to the same in whatever order the directories are listed. -/
theorem Disk.survey_reordered {d other : Disk} (hd : d.top.Sound) (hother : d.Reordered other)
    (p : Path) (o : ScanOptions) (filespec : Option Text) :
    other.survey p o filespec = d.survey p o filespec := by
  obtain ⟨e, he, he'⟩ | ⟨_, _, _, hk, hm, _⟩ := lookUp_reordered hother hd p
  · rw [survey_of_lookUp_error he, survey_of_lookUp_error he']
  rw [survey_of_lookUp hk, survey_of_lookUp hm, ← canonical_reordered hother hd]
  obtain ⟨e, he, he'⟩ | ⟨_, n, m, hn, hm, hnm⟩ := find_reordered hother hd (d.canonical p)
  · rw [he, he']
  · have hsound : n.Sound := hd.at? (find_eq_ok_iff.mp hn).2
    have hsame := fun o : ScanOptions => Scan.outcome_reordered o (d.canonical p) hsound hnm
    rw [hn, hm]
    simp only [Except.map, hsame]

/-- A scan comes to the same in whatever order the directories are listed. It fails just if there
are more files to visit than it may; otherwise it warns of every file, and every directory, that it
had to leave out, and of nothing twice, and has a report on every other file. -/
theorem Disk.survey_counts {d other : Disk} (hd : d.top.Sound) (hother : d.Reordered other)
    {p : Path} {start : Place} {n : Node} (hp : d.lookUp p = .ok (start, n)) {o : ScanOptions}
    {filespec : Option Text} {pattern : Option Pattern}
    (hpattern : Files.patternOf filespec = .ok pattern) :
    let root := d.canonical p
    let given := { o with pattern }
    other.survey p o filespec = d.survey p o filespec ∧
      (d.survey p o filespec = .error (.tooManyEntries o.maxFiles) ↔
        (o.maxFiles : ℕ∞) < (Scan.wantedFiles d given root n).encard) ∧
      ((Scan.wantedFiles d given root n).encard ≤ (o.maxFiles : ℕ∞) →
        ∃ s, d.survey p o filespec = .ok s ∧
          (s.warnings : ℕ∞) =
            (Scan.unreadFiles d given root n).encard +
              (Scan.deepDirectories d given root n).encard +
              (Scan.unseenDirectories d given root n).encard +
              (Scan.unlistedDirectories d given root n).encard ∧
          (s.files.length : ℕ∞) + (Scan.unreadFiles d given root n).encard =
            (Scan.wantedFiles d given root n).encard) := by
  intro root given
  refine ⟨survey_reordered hd hother p o filespec, ?_⟩
  rcases lookUp_canonical_or_unfound hd hp with hroot | ⟨hdirectory, hunfound⟩
  · have hsurvey : d.survey p o filespec = (scan given root (.ok n)).outcome := by
      rw [survey_of_root hp hroot, hpattern]
      rfl
    rw [hsurvey]
    exact ⟨Scan.exceeds_iff hroot hd, Scan.counts_of_within hroot hd⟩
  · have hsurvey : d.survey p o filespec = .ok ⟨[], 1⟩ := by
      rw [survey_of_unfound hp hd hunfound, hpattern]
      rfl
    obtain ⟨hwanted, hunread, hdeep, hunseen, hunlisted⟩ :=
      Scan.encard_of_unfound (o := given) hunfound hdirectory
    rw [hsurvey, hwanted, hunread, hdeep, hunseen, hunlisted]
    simp

/-- A disk with a file that may be read, one that may not, and a directory that may not be
listed. -/
def Disk.guarded : Disk where
  home := [Utf8.encode "w".toList]
  top := .directory 0o755 [(Utf8.encode "w".toList, .directory 0o755 [
    (Utf8.encode "a.rs".toList, .file 0o644 []),
    (Utf8.encode "b.rs".toList, .file 0o200 []),
    (Utf8.encode "src".toList, .directory 0o300 [])])]

/-- Two things are left out there, and the other way round as well. -/
theorem Disk.survey_counts_guarded :
    let p := Path.ofText "/w".toList
    let root := Disk.guarded.canonical p
    let n : Node := .directory 0o755 [
      (Utf8.encode "a.rs".toList, .file 0o644 []),
      (Utf8.encode "b.rs".toList, .file 0o200 []),
      (Utf8.encode "src".toList, .directory 0o300 [])]
    let other : Disk := ⟨Disk.guarded.home,
      .directory 0o755 [(Utf8.encode "w".toList, .directory 0o755 n.entries.reverse)]⟩
    other.survey p {} none = Disk.guarded.survey p {} none ∧
      (Scan.unreadFiles Disk.guarded {} root n).encard +
        (Scan.deepDirectories Disk.guarded {} root n).encard +
        (Scan.unseenDirectories Disk.guarded {} root n).encard +
        (Scan.unlistedDirectories Disk.guarded {} root n).encard = 2 := by
  intro p root n other
  have hsound : Disk.guarded.top.Sound := by decide
  have hother : Disk.guarded.Reordered other :=
    ⟨rfl, .entry _ [] _ [] (.listing _ (List.reverse_perm _).symm)⟩
  have hp : Disk.guarded.lookUp p = .ok ([Utf8.encode "w".toList], n) := rfl
  have hpattern : Files.patternOf none = .ok none := rfl
  obtain ⟨hsame, hexceeds, hcounts⟩ := Disk.survey_counts (o := {}) hsound hother hp hpattern
  obtain ⟨s, hs, htwo⟩ : ∃ s, Disk.guarded.survey p {} none = .ok s ∧ s.warnings = 2 :=
    ⟨_, rfl, rfl⟩
  have hwithin : ¬ (1000000 : ℕ) < (Scan.wantedFiles Disk.guarded {} root n).encard := by
    intro hlimit
    rw [hexceeds.mpr hlimit] at hs
    cases hs
  obtain ⟨s', hs', hwarnings, _⟩ := hcounts (not_lt.mp hwithin)
  obtain rfl := Except.ok.inj (hs.symm.trans hs')
  rw [← hwarnings, htwo]
  exact ⟨hsame, rfl⟩

end Marginalia
