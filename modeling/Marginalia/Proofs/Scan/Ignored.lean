import Marginalia.Proofs.Path.Beside
import Marginalia.Proofs.Scan.Counted
import Marginalia.Proofs.Text.Decoding
/-!
Directories that are ignored. Nothing of what is below them comes into a scan, but how deep they are
and whether they can be looked up counts first: one that is too deep, or that nothing can be learned
of, is warned of like any other.
-/

namespace Marginalia

namespace Scan

/-- A name that directories are ignored for. -/
def Ignores (o : ScanOptions) (name : Name) : Prop :=
  ∃ t, Utf8.encode t = name ∧ (t ∈ usuallyIgnored ∨ t ∈ o.ignored)

theorem isIgnored_of_ignores {o : ScanOptions} {root : Path} (hroot : root.bytes ≠ []) {name : Name}
    (hname : Path.EntryName name) (h : Ignores o name) (place : Place) :
    isIgnored o (Disk.pathBelow root (place ++ [name])) = true := by
  obtain ⟨t, rfl, ht⟩ := h
  have hne := Path.pathBelow_ne_nil hroot place
  rw [isIgnored, Path.pathBelow_concat, Path.fileName?_below hne hname, Option.bind_some,
    Utf8.decode?_encode, Bool.or_eq_true]
  rcases ht with husual | hgiven
  · exact Or.inl (List.contains_iff_mem.mpr husual)
  · right
    apply List.any_eq_true.mpr
    exact ⟨t, hgiven, (Path.endsIn_below_iff hne hname (Path.components_of_name hname)).mpr rfl⟩

/-- Visits of which some are left out, all at one point. -/
def Without (all left rest : List Visit) : Prop :=
  ∃ before after, all = before ++ left ++ after ∧ rest = before ++ after

section Without

variable {left : List Visit}

theorem without_nil (all : List Visit) : Without all [] all :=
  ⟨all, [], by simp, by simp⟩

theorem Without.eq_of_nil {all rest : List Visit} (h : Without all [] rest) : all = rest := by
  obtain ⟨before, after, rfl, rfl⟩ := h
  rw [List.append_nil]

theorem Without.flatMap {α : Type} {f : α → List Visit} {a b : α} (h : Without (f a) left (f b))
    (first last : List α) :
    Without ((first ++ a :: last).flatMap f) left ((first ++ b :: last).flatMap f) := by
  obtain ⟨before, after, ha, hb⟩ := h
  refine ⟨first.flatMap f ++ before, after ++ last.flatMap f, ?_, ?_⟩
  · simp [ha]
  · simp [hb]

theorem without_entry {α : Type} (f : α → List Visit) (a : α) (first last : List α) :
    Without ((first ++ a :: last).flatMap f) (f a) ((first ++ last).flatMap f) :=
  ⟨first.flatMap f, last.flatMap f, by simp, by simp⟩

/-- Without visits that are no files, a scan comes to the same but for the warnings of these. -/
theorem outcome_without {o : ScanOptions} {root : Path} {n m : Node}
    (h : Without (visits o root 0 true [] n) left (visits o root 0 true [] m))
    (hleft : ∀ v ∈ left, v.isFile = false) :
    (scan o root (.ok n)).outcome = (scan o root (.ok m)).outcome.map fun s =>
      { s with warnings := s.warnings + left.length } := by
  obtain ⟨before, after, hall, hrest⟩ := h
  have hfiles : left.countP Visit.isFile = 0 :=
    List.countP_eq_zero.mpr fun v hv => by simp [hleft v hv]
  have hreports : left.filterMap (·.report? root) = [] :=
    List.filterMap_eq_nil_iff.mpr fun v hv => (Visit.of_not_file (hleft v hv) o root).1
  have hwarnings : (left.filterMap (·.warning? o root)).length = left.length := by
    rw [List.length_filterMap_eq_countP]
    exact List.countP_eq_length.mpr fun v hv => (Visit.of_not_file (hleft v hv) o root).2
  have hsummary : summary o root (before ++ left ++ after) =
      { summary o root (before ++ after) with
        warnings := (summary o root (before ++ after)).warnings + left.length } := by
    simp [summary, hreports, hwarnings]
    omega
  rw [outcome_of_ok, outcome_of_ok, hall, hrest, hsummary]
  simp only [List.countP_append, hfiles, Nat.add_zero]
  split
  · rfl
  · rfl

end Without

/-- What an ignored directory can give: at most a visit to itself, and none to what is below it. -/
def Passed (place : Place) (vs : List Visit) : Prop :=
  vs = [] ∨ vs = [.tooDeep place] ∨ ∃ e, vs = [.noMetadata place e]

theorem visits_of_isIgnored {o : ScanOptions} {root : Path} {place : Place}
    (h : isIgnored o (Disk.pathBelow root place) = true) (depth : Nat) (mayReach : Bool) {n : Node}
    (hn : n.isDirectory = true) : Passed place (visits o root depth mayReach place n) := by
  cases n with
  | directory mode entries =>
    rw [visits]
    split
    · exact Or.inr (Or.inl rfl)
    · split
      · exact Or.inr (Or.inr ⟨_, rfl⟩)
      · exact Or.inl rfl
  | file mode data => cases hn
  | symlink target => cases hn
  | socket mode => cases hn

/-- The same visits, but for those that an ignored directory at a place can give. -/
def Lacks (place : Place) (all rest : List Visit) : Prop :=
  ∃ left, Passed place left ∧ Without all left rest

theorem lacks_self (place : Place) (all : List Visit) : Lacks place all all :=
  ⟨[], Or.inl rfl, without_nil all⟩

section Dropping

variable {o : ScanOptions} {root : Path} {depth : Nat} {mayReach : Bool} {place other : Place}

theorem lacks_visitEntry {name : Name} {child changed : Node}
    (hsame : changed.isDirectory = child.isDirectory)
    (h : Lacks other (visits o root (depth + 1) mayReach (place ++ [name]) child)
      (visits o root (depth + 1) mayReach (place ++ [name]) changed)) :
    Lacks other (visitEntry o root depth mayReach place (name, child))
      (visitEntry o root depth mayReach place (name, changed)) := by
  rw [visitEntry, visitEntry, hsame]
  split
  · exact lacks_self other []
  · exact h

theorem lacks_visits {mode : Nat} {entries others : List (Name × Node)}
    (h : Lacks other (entries.flatMap (visitEntry o root depth (Mode.maySearch mode) place))
      (others.flatMap (visitEntry o root depth (Mode.maySearch mode) place))) :
    Lacks other (visits o root depth mayReach place (.directory mode entries))
      (visits o root depth mayReach place (.directory mode others)) := by
  rcases visits_listing o root depth mayReach place mode with ⟨vs, _, hall⟩ | hall
  · rw [hall, hall]
    exact lacks_self other vs
  · rwa [hall, hall]

/-- Taking an ignored directory out of a tree takes away at most the visit to itself. -/
theorem lacks_drop {name : Name} {n k : Node} (hk : k.isDirectory = true) {directory : Place}
    (hn : n.Sound) (hat : n.at? (directory ++ [name]) = some k)
    (hignored : isIgnored o (Disk.pathBelow root (place ++ (directory ++ [name]))) = true) :
    Lacks (place ++ (directory ++ [name])) (visits o root depth mayReach place n)
      (visits o root depth mayReach place (n.drop directory name)) := by
  -- Along the way to the entry: only one entry of each directory is changed.
  induction directory generalizing n place depth mayReach with
  | nil =>
    cases n with
    | directory mode entries =>
      have hlookup : entries.lookup name = some k := by
        simpa [Node.at?] using hat
      obtain ⟨before, after, rfl, hother⟩ := exists_around_of_lookup hn.once hlookup
      have hdrop : (Node.directory mode (before ++ (name, k) :: after)).drop [] name =
          .directory mode (before ++ after) :=
        congrArg _ (dropEntry_around hother k)
      rw [hdrop]
      apply lacks_visits
      refine ⟨_, ?_, without_entry _ _ before after⟩
      rw [visitEntry]
      split
      · exact Or.inl rfl
      · exact visits_of_isIgnored hignored _ _ hk
    | file mode data => cases hat
    | symlink target => cases hat
    | socket mode => cases hat
  | cons first rest ih =>
    cases n with
    | directory mode entries =>
      obtain ⟨child, hchild, hbelow⟩ := Option.bind_eq_some_iff.mp hat
      obtain ⟨before, after, rfl, hother⟩ := exists_around_of_lookup hn.once hchild
      have hdrop : (Node.directory mode (before ++ (first, child) :: after)).drop
          (first :: rest) name =
          .directory mode (before ++ (first, child.drop rest name) :: after) :=
        (Node.modifyAt_cons _ _ _ _ _).trans (congrArg _ (map_changeEntry_around hother _ child))
      have hplace : place ++ [first] ++ (rest ++ [name]) = place ++ (first :: rest ++ [name]) := by
        simp
      have hsound : child.Sound := hn.children (first, child) (by simp)
      have hlacks := @ih (depth + 1) (Mode.maySearch mode) (place ++ [first]) child hsound hbelow
        (hplace ▸ hignored)
      obtain ⟨left, hleft, hwithout⟩ :=
        lacks_visitEntry (child.isDirectory_drop rest name) hlacks
      rw [hdrop]
      apply lacks_visits
      exact ⟨left, hplace ▸ hleft, hwithout.flatMap before after⟩
    | file mode data => cases hat
    | symlink target => cases hat
    | socket mode => cases hat

end Dropping

section Warned

variable {o : ScanOptions} {root : Path} {n m : Node} {place : Place} {left : List Visit}

theorem Passed.not_file (h : Passed place left) : ∀ v ∈ left, v.isFile = false := by
  intro v hv
  rcases h with rfl | rfl | ⟨e, rfl⟩
  · cases hv
  · rw [List.mem_singleton.mp hv]
    rfl
  · rw [List.mem_singleton.mp hv]
    rfl

theorem Passed.length_le (h : Passed place left) : left.length ≤ 1 := by
  rcases h with rfl | rfl | ⟨e, rfl⟩
  · exact Nat.zero_le 1
  · exact Nat.le_refl 1
  · exact Nat.le_refl 1

/-- Visits are left out without a directory just if it is too deep or cannot be looked up. -/
theorem warned_iff {d other : Disk} {start start' : Place}
    (hroot : d.lookUp root = .ok (start, n)) (hd : d.top.Sound)
    (hroot' : other.lookUp root = .ok (start', m)) (hother : other.top.Sound)
    (hgone : m.at? place = none) (hleft : Passed place left)
    (h : Without (visits o root 0 true [] n) left (visits o root 0 true [] m)) :
    place ∈ deepDirectories d o root n ∪ unseenDirectories d o root n ↔ left ≠ [] := by
  have hnowhere : place ∉ directories other o root m := by
    intro hplace
    obtain ⟨mode, entries, hcomes⟩ := hplace
    cases hgone.symm.trans hcomes.stands
  constructor
  · intro hwarned hnil
    subst hnil
    have hsame := h.eq_of_nil
    rcases hwarned with hdeep | hunseen
    · have hvisit := (tooDeep_mem_visits_iff hroot hd).mpr hdeep
      rw [hsame, tooDeep_mem_visits_iff hroot' hother] at hvisit
      exact hnowhere hvisit.1
    · obtain ⟨e, hvisit⟩ := (exists_noMetadata_iff hroot hd).mp hunseen
      rw [hsame, noMetadata_mem_visits_iff hroot' hother] at hvisit
      exact hnowhere hvisit.1
  · intro hsome
    obtain ⟨before, after, hall, _⟩ := h
    rcases hleft with rfl | rfl | ⟨e, rfl⟩
    · exact absurd rfl hsome
    · left
      apply (tooDeep_mem_visits_iff hroot hd).mp
      rw [hall]
      simp
    · right
      apply (exists_noMetadata_iff hroot hd).mpr
      refine ⟨e, ?_⟩
      rw [hall]
      simp

end Warned

/-- A pattern lets files in or not, and says nothing of directories. -/
theorem warned_pattern (d : Disk) (o : ScanOptions) (pattern : Option Pattern) (root : Path)
    (n : Node) :
    deepDirectories d { o with pattern } root n ∪ unseenDirectories d { o with pattern } root n =
      deepDirectories d o root n ∪ unseenDirectories d o root n := by
  have henters : ∀ directory,
      Enters d { o with pattern } root n directory ↔ Enters d o root n directory :=
    fun directory => ⟨fun h => ⟨h.opens, h.shallow, h.flat⟩, fun h => ⟨h.opens, h.shallow, h.flat⟩⟩
  have hcomes : ∀ place k,
      Comes d { o with pattern } root n place k ↔ Comes d o root n place k := by
    intro place k
    constructor
    · intro h
      exact ⟨h.stands, fun _ _ he => (henters _).mp (h.parent _ _ he), h.listed⟩
    · intro h
      exact ⟨h.stands, fun _ _ he => (henters _).mpr (h.parent _ _ he), h.listed⟩
  simp only [deepDirectories, unseenDirectories, directories, hcomes]

/-- What a scan comes to without an ignored directory, if its root can be looked up. -/
theorem outcome_drop {d : Disk} (hd : d.top.Sound) {root : Path} {start : Place} {n : Node}
    (hroot : d.lookUp root = .ok (start, n)) {directory : Place} {name : Name} {k : Node}
    (hk : n.at? (directory ++ [name]) = some k) (hdirectory : k.isDirectory = true)
    {o : ScanOptions} (hname : Ignores o name)
    (hroot' : (d.drop (start ++ directory) name).lookUp root =
      .ok (start, n.drop directory name)) :
    let warned := deepDirectories d o root n ∪ unseenDirectories d o root n
    (directory ++ [name] ∉ warned →
        (scan o root (.ok n)).outcome = (scan o root (.ok (n.drop directory name))).outcome) ∧
      (directory ++ [name] ∈ warned → (scan o root (.ok n)).outcome =
        (scan o root (.ok (n.drop directory name))).outcome.map fun s =>
          { s with warnings := s.warnings + 1 }) := by
  intro warned
  have hn := Disk.sound_of_lookUp hroot hd
  have hgone : (n.drop directory name).at? (directory ++ [name]) = none := by
    have hbelow := n.at?_drop_below directory name []
    rwa [List.append_nil] at hbelow
  have hignored : isIgnored o (Disk.pathBelow root (directory ++ [name])) = true :=
    isIgnored_of_ignores (Disk.ne_nil_of_lookUp hroot) (hn.names_of_at? hk name (by simp)) hname
      directory
  have hlacks : Lacks (directory ++ [name]) (visits o root 0 true [] n)
      (visits o root 0 true [] (n.drop directory name)) :=
    @lacks_drop _ root 0 true [] name n k hdirectory directory hn hk hignored
  obtain ⟨left, hleft, hwithout⟩ := hlacks
  have houtcome := outcome_without hwithout hleft.not_file
  have hiff := warned_iff hroot hd hroot' (hd.drop _ _) hgone hleft hwithout
  constructor
  · intro hnot
    obtain rfl : left = [] := by
      by_contra hsome
      exact hnot (hiff.mpr hsome)
    refine houtcome.trans ?_
    cases (scan o root (.ok (n.drop directory name))).outcome <;> rfl
  · intro hin
    have hone : left.length = 1 := by
      have hsome := List.length_pos_of_ne_nil (hiff.mp hin)
      have hle := hleft.length_le
      omega
    rw [hone] at houtcome
    exact houtcome

end Scan

/-- A directory below the root of a scan that is ignored could as well not be there, with all that
is in it, if the way to the root does not lead through it: the scan comes to the same. The only
exception is a directory that is warned of before its name is looked at, as it is too deep or cannot
be looked up: then there is one warning more. -/
theorem Disk.survey_drop_ignored {d : Disk} (hd : d.top.Sound) {p : Path} {start : Place} {n : Node}
    (hp : d.lookUp p = .ok (start, n)) {directory : Place} {name : Name} {k : Node}
    (hk : n.at? (directory ++ [name]) = some k) (hdirectory : k.isDirectory = true)
    {o : ScanOptions} (hname : Scan.Ignores o name) (filespec : Option Text)
    (hleads : ∃ found, (d.drop (start ++ directory) name).lookUp p = .ok found) :
    let root := d.canonical p
    let other := d.drop (start ++ directory) name
    let warned := Scan.deepDirectories d o root n ∪ Scan.unseenDirectories d o root n
    (directory ++ [name] ∉ warned → d.survey p o filespec = other.survey p o filespec) ∧
      (directory ++ [name] ∈ warned → d.survey p o filespec =
        (other.survey p o filespec).map fun s => { s with warnings := s.warnings + 1 }) := by
  intro root other warned
  obtain ⟨⟨place, m⟩, hm⟩ := hleads
  have hpart := d.part_drop (start ++ directory) name
  have hother : other.top.Sound := hd.drop _ _
  obtain ⟨rfl, rfl⟩ := lookUp_drop hp directory name hm
  have hcanonical : other.canonical p = root := hpart.canonical_eq hm hp hother hd
  have hfound := hpart.lookUp_canonical_iff hm hp hother hd
  rcases lookUp_canonical_or_unfound hd hp with hroot | ⟨_, hunfound⟩
  · have hroot' := hfound.mpr hroot
    rw [survey_of_root hp hroot, survey_of_root hm hroot', hcanonical]
    cases Files.patternOf filespec with
    | error e => exact ⟨fun _ => rfl, fun _ => rfl⟩
    | ok pattern =>
      have hname' : Scan.Ignores { o with pattern } name := hname
      rw [hcanonical] at hroot'
      have houtcome := Scan.outcome_drop hd hroot hk hdirectory hname' hroot'
      rwa [Scan.warned_pattern] at houtcome
  · have hunfound' : ∀ found, other.lookUp (other.canonical p) ≠ .ok found := by
      intro found hroot'
      exact hunfound _ (hfound.mp (lookUp_canonical_of_found hother hm hroot'))
    rw [survey_of_unfound hp hd hunfound, survey_of_unfound hm hother hunfound']
    refine ⟨fun _ => rfl, ?_⟩
    intro hin
    -- Below a root that cannot be looked up there is nothing to warn of.
    rcases hin with ⟨⟨_, _, hcomes⟩, _⟩ | ⟨⟨_, _, hcomes⟩, _⟩
    · exact absurd hcomes (Scan.not_comes_of_unfound hunfound)
    · exact absurd hcomes (Scan.not_comes_of_unfound hunfound)

/-- A disk with two directories that are ignored, one of them in another one. -/
def Disk.built : Disk where
  home := [Utf8.encode "w".toList]
  top := .directory 0o755 [(Utf8.encode "w".toList, .directory 0o755 [
    (Utf8.encode "src".toList, .directory 0o755 [
      (Utf8.encode "dist".toList, .directory 0o755 [
        (Utf8.encode "b.rs".toList, .file 0o644 [])])]),
    (Utf8.encode "target".toList, .directory 0o755 [
      (Utf8.encode "a.rs".toList, .file 0o644 [])])])]

/-- Two directories deep, `target` is passed over in silence, but not `dist`, which is too deep. -/
theorem Disk.survey_drop_ignored_built :
    let o : ScanOptions := { maxDepth := 2 }
    let p := Path.ofText "/".toList
    let w := Utf8.encode "w".toList
    let src := Utf8.encode "src".toList
    let dist := Utf8.encode "dist".toList
    let target := Utf8.encode "target".toList
    Disk.built.survey p o none = (Disk.built.drop [w] target).survey p o none ∧
      Disk.built.survey p o none = ((Disk.built.drop [w, src] dist).survey p o none).map fun s =>
        { s with warnings := s.warnings + 1 } := by
  intro o p w src dist target
  have hsound : Disk.built.top.Sound := by decide
  have hp : Disk.built.lookUp p = .ok ([], Disk.built.top) := rfl
  constructor
  · have hname : Scan.Ignores o target := ⟨"target".toList, rfl, by decide⟩
    obtain ⟨hsilent, _⟩ :=
      @Disk.survey_drop_ignored _ hsound _ _ _ hp [w] target _ rfl rfl _ hname none ⟨_, rfl⟩
    apply hsilent
    rintro (⟨_, hdeep⟩ | ⟨_, _, e, hlook⟩)
    · cases hdeep
    · cases hlook
  · have hname : Scan.Ignores o dist := ⟨"dist".toList, rfl, by decide⟩
    obtain ⟨_, hwarned⟩ :=
      @Disk.survey_drop_ignored _ hsound _ _ _ hp [w, src] dist _ rfl rfl _ hname none ⟨_, rfl⟩
    apply hwarned
    left
    refine ⟨⟨0o755, _, rfl, ?_, ?_⟩, rfl⟩
    · intro directory name he
      obtain ⟨rfl, _⟩ : [w, src] = directory ∧ dist = name := by
        simpa using List.append_inj' he rfl
      refine ⟨?_, by decide, by decide⟩
      intro q hq
      have hlist : q = [] ∨ ∃ rest, q = w :: rest ∧ (rest = [] ∨ rest = [src]) := by
        simpa [List.prefix_cons_iff] using hq
      rcases hlist with rfl | ⟨_, rfl, rfl | rfl⟩
      · exact ⟨_, _, rfl, ⟨_, rfl⟩, Scan.isIgnored_eq_false_iff.mp (by decide), by decide⟩
      · exact ⟨_, _, rfl, ⟨_, rfl⟩, Scan.isIgnored_eq_false_iff.mp (by decide), by decide⟩
      · exact ⟨_, _, rfl, ⟨_, rfl⟩, Scan.isIgnored_eq_false_iff.mp (by decide), by decide⟩
    · intro _ hflat
      cases hflat

end Marginalia
