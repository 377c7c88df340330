import Marginalia.Proofs.Program.OnDisk
import Marginalia.Proofs.Scan.Reach
import Marginalia.Proofs.Tree.Canonical
/-!
What a scan comes to, told of all its visits: it fails just if there are too many files among them,
and otherwise the summary has the reports in the order of their places.
-/

namespace Marginalia

namespace Scan

namespace Visit

def isFile : Visit → Bool
  | file .. => true
  | _ => false

/-- A file that could not be read. -/
def isUnread : Visit → Bool
  | file _ (.error _) => true
  | _ => false

def isTooDeep : Visit → Bool
  | tooDeep _ => true
  | _ => false

def isUnseen : Visit → Bool
  | noMetadata .. => true
  | _ => false

def isUnlisted : Visit → Bool
  | noListing .. => true
  | _ => false

section Kinds

variable {v : Visit}

theorem isFile_iff : v.isFile = true ↔ ∃ place result, v = .file place result := by
  cases v <;> simp [isFile]

theorem isUnread_iff : v.isUnread = true ↔ ∃ place e, v = .file place (.error e) := by
  cases v with
  | file place result => cases result <;> simp [isUnread]
  | tooDeep place | noMetadata place e | noListing place e => simp [isUnread]

theorem isTooDeep_iff : v.isTooDeep = true ↔ ∃ place, v = .tooDeep place := by
  cases v <;> simp [isTooDeep]

theorem isUnseen_iff : v.isUnseen = true ↔ ∃ place e, v = .noMetadata place e := by
  cases v <;> simp [isUnseen]

theorem isUnlisted_iff : v.isUnlisted = true ↔ ∃ place e, v = .noListing place e := by
  cases v <;> simp [isUnlisted]

end Kinds

theorem report?_eq_some_iff {root : Path} {v : Visit} {place : Place} {r : Report} :
    v.report? root = some (place, r) ↔
      ∃ bytes, v = .file place (.ok bytes) ∧ r = reportOn (Disk.pathBelow root place) bytes := by
  cases v with
  | file other result =>
    cases result with
    | ok bytes =>
      simp only [report?, Option.some.injEq, Prod.mk.injEq, file.injEq, Except.ok.injEq]
      constructor
      · intro h
        obtain ⟨rfl, rfl⟩ := h
        exact ⟨bytes, ⟨rfl, rfl⟩, rfl⟩
      · intro h
        obtain ⟨_, ⟨rfl, rfl⟩, rfl⟩ := h
        exact ⟨rfl, rfl⟩
    | error e => simp [report?]
  | tooDeep other => simp [report?]
  | noMetadata other e => simp [report?]
  | noListing other e => simp [report?]

theorem place_of_report? {root : Path} {v : Visit} {found : Place × Report}
    (h : v.report? root = some found) : found.1 = v.place := by
  obtain ⟨bytes, rfl, _⟩ := report?_eq_some_iff.mp h
  rfl

/-- A visit is warned of just if it is of one of four kinds, and never of two at once. -/
theorem one_warning (o : ScanOptions) (root : Path) (v : Visit) :
    (if (v.warning? o root).isSome then 1 else 0) =
      (if v.isUnread then 1 else 0) + (if v.isTooDeep then 1 else 0) +
        (if v.isUnseen then 1 else 0) + (if v.isUnlisted then 1 else 0) := by
  cases v with
  | file place result => cases result <;> rfl
  | tooDeep place => rfl
  | noMetadata place e => rfl
  | noListing place e => rfl

theorem one_report (root : Path) (v : Visit) :
    (if (v.report? root).isSome then 1 else 0) + (if v.isUnread then 1 else 0) =
      (if v.isFile then 1 else 0) := by
  cases v with
  | file place result => cases result <;> rfl
  | tooDeep place => rfl
  | noMetadata place e => rfl
  | noListing place e => rfl

/-- What is no file is warned of. -/
theorem of_not_file {v : Visit} (h : v.isFile = false) (o : ScanOptions) (root : Path) :
    v.report? root = none ∧ (v.warning? o root).isSome = true := by
  cases v with
  | file place result => cases h
  | tooDeep place => exact ⟨rfl, rfl⟩
  | noMetadata place e => exact ⟨rfl, rfl⟩
  | noListing place e => exact ⟨rfl, rfl⟩

end Visit

theorem upTo_cons_of_not_file {v : Visit} (h : v.isFile = false) (limit : Nat) (vs : List Visit) :
    upTo limit (v :: vs) = (v :: (upTo limit vs).1, (upTo limit vs).2) := by
  cases v with
  | file place bytes => cases h
  | tooDeep place => cases limit <;> rfl
  | noMetadata place e => cases limit <;> rfl
  | noListing place e => cases limit <;> rfl

/-- A scan is cut short just if there are more files than it may visit. -/
theorem upTo_eq (limit : Nat) (vs : List Visit) :
    (upTo limit vs).2 = decide (limit < vs.countP Visit.isFile) ∧
      (vs.countP Visit.isFile ≤ limit → upTo limit vs = (vs, false)) := by
  induction vs generalizing limit with
  | nil => cases limit <;> simp [upTo]
  | cons v vs ih =>
    cases hv : v.isFile with
    | false =>
      obtain ⟨hcut, hall⟩ := ih limit
      rw [upTo_cons_of_not_file hv, List.countP_cons_of_neg (by simp [hv])]
      exact ⟨hcut, fun h => by rw [hall h]⟩
    | true =>
      rw [List.countP_cons_of_pos hv]
      cases v with
      | file place bytes =>
        cases limit with
        | zero => exact ⟨by simp [upTo], fun h => absurd h (by omega)⟩
        | succ limit =>
          obtain ⟨hcut, hall⟩ := ih limit
          simp only [upTo]
          exact ⟨by simp [hcut], fun h => by rw [hall (by omega)]⟩
      | tooDeep place => cases hv
      | noMetadata place e => cases hv
      | noListing place e => cases hv

theorem outcome_eq (o : ScanOptions) (root : Path) (found : Except SystemError Node) :
    let all := visitsFrom o root found
    (scan o root found).outcome =
      if o.maxFiles < all.countP Visit.isFile then .error (.tooManyEntries o.maxFiles)
      else .ok (summary o root all) := by
  intro all
  obtain ⟨hcut, hall⟩ := upTo_eq o.maxFiles all
  have hscan : (scan o root found).outcome =
      if (upTo o.maxFiles all).2 = true then .error (.tooManyEntries o.maxFiles)
      else .ok (summary o root (upTo o.maxFiles all).1) :=
    rfl
  rw [hscan, hcut]
  by_cases h : o.maxFiles < all.countP Visit.isFile
  · simp [h]
  · simp [h, hall (Nat.not_lt.mp h)]

/-- What a scan comes to, if it does not fail, is told of all its visits. -/
theorem eq_summary_of_outcome {o : ScanOptions} {root : Path} {found : Except SystemError Node}
    {s : Summary} (h : (scan o root found).outcome = .ok s) :
    s = summary o root (visitsFrom o root found) := by
  rw [outcome_eq] at h
  split at h
  · cases h
  · exact (Except.ok.inj h).symm

theorem outcome_of_ok (o : ScanOptions) (root : Path) (n : Node) :
    (scan o root (.ok n)).outcome =
      if o.maxFiles < (visits o root 0 true [] n).countP Visit.isFile then
        .error (.tooManyEntries o.maxFiles)
      else .ok (summary o root (visits o root 0 true [] n)) :=
  outcome_eq o root (.ok n)

/-- Of a root that cannot be looked up there is one warning, and nothing else. -/
theorem outcome_of_error (o : ScanOptions) (root : Path) (e : SystemError) :
    (scan o root (.error e)).outcome = .ok ⟨[], 1⟩ := by
  have hvisits : visitsFrom o root (.error e) = [.noMetadata [] e] := rfl
  rw [outcome_eq, hvisits, if_neg (by simp [Visit.isFile])]
  simp [summary, sorted, Visit.report?, Visit.warning?]

section Sorting

/-- Files in the order of their places, of which no two are the same. -/
theorem pairwise_sorted {files : List (Place × Report)} (h : (files.map (·.1)).Nodup) :
    (sorted files).Pairwise (fun a b => a.1 < b.1) := by
  have hle : (sorted files).Pairwise (fun a b => decide (a.1 ≤ b.1) = true) := by
    apply List.pairwise_mergeSort
    · intro a b c hab hbc
      exact decide_eq_true (List.le_trans (of_decide_eq_true hab) (of_decide_eq_true hbc))
    · intro a b
      rcases List.le_total a.1 b.1 with hab | hba
      · simp [hab]
      · simp [hba]
  have hne : (sorted files).Pairwise (fun a b => a.1 ≠ b.1) := by
    apply List.pairwise_map.mp
    exact ((List.mergeSort_perm files _).map _).nodup_iff.mpr h
  apply hle.imp₂ _ hne
  intro a b hab hne
  rcases List.le_iff_lt_or_eq.mp (of_decide_eq_true hab) with hlt | he
  · exact hlt
  · exact absurd he hne

/-- Once it is sorted, nothing is left of the order that files were found in. -/
theorem sorted_eq_of_perm {first second : List (Place × Report)} (hp : first.Perm second)
    (h : (first.map (·.1)).Nodup) : sorted first = sorted second := by
  have hsecond : (second.map (·.1)).Nodup := (hp.map _).nodup_iff.mp h
  have hperm : (sorted first).Perm (sorted second) :=
    (List.mergeSort_perm first _).trans (hp.trans (List.mergeSort_perm second _).symm)
  apply hperm.eq_of_pairwise _ (pairwise_sorted h) (pairwise_sorted hsecond)
  intro a b _ _ hab hba
  exact absurd hba (List.lt_asymm hab)

end Sorting

section Summing

variable {o : ScanOptions} {root : Path} {vs : List Visit}

theorem nodup_reports (root : Path) (h : (vs.map Visit.place).Nodup) :
    ((vs.filterMap (·.report? root)).map (·.1)).Nodup := by
  have hsub : ((vs.filterMap (·.report? root)).map (·.1)).Sublist (vs.map Visit.place) := by
    clear h
    induction vs with
    | nil => exact List.Sublist.refl _
    | cons v vs ih =>
      cases hv : v.report? root with
      | none =>
        rw [List.filterMap_cons_none hv]
        exact ih.cons _
      | some found =>
        rw [List.filterMap_cons_some hv, List.map_cons, List.map_cons, Visit.place_of_report? hv]
        exact ih.cons_cons _
  exact h.sublist hsub

theorem mem_files_summary_iff {path : Path} {r : Report} :
    (path, r) ∈ (summary o root vs).files ↔
      ∃ place bytes, .file place (.ok bytes) ∈ vs ∧ path = Disk.pathBelow root place ∧
        r = reportOn path bytes := by
  simp only [summary, sorted, List.mem_map, List.mem_mergeSort, List.mem_filterMap]
  constructor
  · intro h
    obtain ⟨⟨place, report⟩, ⟨v, hv, hreport⟩, he⟩ := h
    obtain ⟨bytes, rfl, rfl⟩ := Visit.report?_eq_some_iff.mp hreport
    obtain ⟨rfl, rfl⟩ := Prod.mk.inj he
    exact ⟨place, bytes, hv, rfl, rfl⟩
  · intro h
    obtain ⟨place, bytes, hv, rfl, rfl⟩ := h
    exact ⟨(place, reportOn _ bytes), ⟨_, hv, Visit.report?_eq_some_iff.mpr ⟨bytes, rfl, rfl⟩⟩,
      rfl⟩

theorem warnings_summary :
    (summary o root vs).warnings =
      vs.countP Visit.isUnread + vs.countP Visit.isTooDeep + vs.countP Visit.isUnseen +
        vs.countP Visit.isUnlisted := by
  change (vs.filterMap (·.warning? o root)).length = _
  rw [List.length_filterMap_eq_countP]
  induction vs with
  | nil => rfl
  | cons v vs ih =>
    have hv := Visit.one_warning o root v
    simp only [List.countP_cons]
    omega

/-- A file that is visited is reported on or could not be read. -/
theorem length_files_summary :
    (summary o root vs).files.length + vs.countP Visit.isUnread = vs.countP Visit.isFile := by
  simp only [summary, sorted, List.length_map, List.length_mergeSort]
  rw [List.length_filterMap_eq_countP]
  induction vs with
  | nil => rfl
  | cons v vs ih =>
    have hv := Visit.one_report root v
    simp only [List.countP_cons]
    omega

end Summing

end Scan

namespace Disk

/-- What a scan of a disk returns, whatever it says on its way. -/
def survey (d : Disk) (p : Path) (o : ScanOptions) (filespec : Option Text) :
    Except Failure Summary :=
  ((Disk.files.scan p o filespec).run.run d).1.bind (·.2.outcome)

theorem survey_of_lookUp_error {d : Disk} {p : Path} {fault : Fault} (h : d.lookUp p = .error fault)
    (o : ScanOptions) (filespec : Option Text) :
    d.survey p o filespec = .error (.file .finding p .missing) := by
  have hnone : d.explore p = none := by rw [explore, h]
  have hexplore : d.ask (liftM (Disk.files.explore p)) = (.ok (d.explore p), d) := rfl
  rw [survey, ← ask, Files.scan, ask_bind, hexplore, hnone]
  rfl

section Root

variable {d : Disk} {p : Path} {found : Place × Node} (h : d.lookUp p = .ok found)
include h

theorem survey_of_lookUp (o : ScanOptions) (filespec : Option Text) :
    d.survey p o filespec =
      (Files.patternOf filespec).bind fun pattern =>
        (Marginalia.scan { o with pattern } (d.canonical p)
          ((d.find (d.canonical p)).map (·.2))).outcome := by
  have hfound : d.explore p = some (d.canonical p, (d.find (d.canonical p)).map (·.2)) := by
    rw [explore, h]
  have hexplore : d.ask (liftM (Disk.files.explore p)) = (.ok (d.explore p), d) := rfl
  rw [survey, ← ask, Files.scan, ask_bind, hexplore, hfound]
  dsimp only
  rw [ask_bind]
  cases Files.patternOf filespec <;> rfl

theorem survey_of_root {start : Place} {n : Node}
    (hroot : d.lookUp (d.canonical p) = .ok (start, n)) (o : ScanOptions)
    (filespec : Option Text) :
    d.survey p o filespec =
      (Files.patternOf filespec).bind fun pattern =>
        (Marginalia.scan { o with pattern } (d.canonical p) (.ok n)).outcome := by
  have hfind : d.find (d.canonical p) = .ok (start, n) :=
    find_eq_ok_iff.mpr (lookUp_eq_ok_iff.mp hroot).2
  rw [survey_of_lookUp h, hfind]
  rfl

/-- A root that is not found by its canonical path is warned of. -/
theorem survey_of_unfound (hd : d.top.Sound)
    (hroot : ∀ found, d.lookUp (d.canonical p) ≠ .ok found) (o : ScanOptions)
    (filespec : Option Text) :
    d.survey p o filespec = (Files.patternOf filespec).map fun _ => ⟨[], 1⟩ := by
  obtain ⟨e, he⟩ := find_canonical_of_unfound hd h hroot
  rw [survey_of_lookUp h, he]
  cases Files.patternOf filespec with
  | error fault => rfl
  | ok pattern => exact Scan.outcome_of_error _ _ e

end Root

end Disk

end Marginalia
