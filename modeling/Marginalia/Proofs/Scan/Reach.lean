import Marginalia.Proofs.Tree.Exploring
import Marginalia.Scan
/-!
What a scan comes upon, told place by place. A place is reached if every directory on the way to it
is entered, and a directory is entered if its path leads to it and lets it be listed. The visits of
a scan are then just the visits to the places that are reached, each of them once.
-/

namespace Marginalia.Scan

/-- A directory that is passed over, for its name or since its path ends in an entry of the list. -/
def Ignored (o : ScanOptions) (directory : Path) : Prop :=
  (∃ bytes name, directory.fileName? = some bytes ∧ Utf8.decode? bytes = some name ∧
    name ∈ usuallyIgnored) ∨
    ∃ entry ∈ o.ignored, (Path.ofText entry).components <:+ directory.components

theorem isIgnored_iff {o : ScanOptions} {directory : Path} :
    isIgnored o directory = true ↔ Ignored o directory := by
  unfold isIgnored Ignored
  simp only [Bool.or_eq_true, List.any_eq_true, Path.endsIn, List.isSuffixOf_iff_suffix]
  apply or_congr_left
  cases directory.fileName? with
  | none => simp
  | some bytes => cases hname : Utf8.decode? bytes <;> simp [hname]

theorem isIgnored_eq_false_iff {o : ScanOptions} {directory : Path} :
    isIgnored o directory = false ↔ ¬ Ignored o directory := by
  rw [← isIgnored_iff, Bool.not_eq_true]

/-- A file that a pattern lets in, if there is one: by its name, or by the way to it from the root
with every backslash taken for a slash. -/
def Wanted (o : ScanOptions) (root : Path) (place : Place) : Prop :=
  ∀ pattern, o.pattern = some pattern →
    (∃ bytes name, (Disk.pathBelow root place).fileName? = some bytes ∧
      Utf8.decode? bytes = some name ∧ pattern.covers name = true) ∨
    ∃ way, Utf8.decode? ([Path.slash].intercalate place) = some way ∧
      pattern.covers (way.map fun c => if c = '\\' then '/' else c) = true

theorem isWanted_iff {o : ScanOptions} {root : Path} {place : Place} :
    isWanted o root place = true ↔ Wanted o root place := by
  unfold isWanted Wanted
  cases o.pattern with
  | none => simp
  | some pattern =>
    simp only [Option.some.injEq, forall_eq', Bool.or_eq_true, relativeText]
    apply or_congr
    · cases (Disk.pathBelow root place).fileName? with
      | none => simp
      | some bytes => cases hname : Utf8.decode? bytes <;> simp [hname]
    · cases Utf8.decode? ([Path.slash].intercalate place) <;> simp

/-- A directory proper, whose path leads to it, that is not ignored, and can be listed. -/
def Opens (d : Disk) (o : ScanOptions) (root : Path) (n : Node) (place : Place) : Prop :=
  ∃ mode entries, n.at? place = some (.directory mode entries) ∧
    (∃ found, d.lookUp (Disk.pathBelow root place) = .ok found) ∧
    ¬ Ignored o (Disk.pathBelow root place) ∧ Mode.mayRead mode = true

/-- A directory whose entries a scan goes through: it and all those above it open, and it is not too
deep. A flat scan goes through the root only. -/
structure Enters (d : Disk) (o : ScanOptions) (root : Path) (n : Node) (directory : Place) :
    Prop where
  opens : ∀ q, q <+: directory → Opens d o root n q
  shallow : directory.length ≤ o.maxDepth
  flat : o.flat = true → directory = []

/-- A node that a scan comes upon: the root, or an entry of a directory that it goes through. A flat
scan does not come upon directories among the entries. -/
structure Comes (d : Disk) (o : ScanOptions) (root : Path) (n : Node) (place : Place) (k : Node) :
    Prop where
  stands : n.at? place = some k
  parent : ∀ directory name, place = directory ++ [name] → Enters d o root n directory
  listed : k.isDirectory = true → o.flat = true → place = []

/-- The place of a visit. -/
def Visit.place : Visit → Place
  | file place _ | tooDeep place | noMetadata place _ | noListing place _ => place

/-- The visit to a node, leaving aside what is below it. -/
def visitsAt (o : ScanOptions) (root : Path) (n : Node) (place : Place) : Node → List Visit
  | .file mode data =>
    visitFile o root place
      (reached (Disk.pathBelow root place) (n.mayPass place) (Disk.read (.file mode data)))
  | .directory mode _ =>
    if place.length > o.maxDepth then [.tooDeep place]
    else
      match reached (Disk.pathBelow root place) (n.mayPass place) (.ok ()) with
      | .error e => [.noMetadata place e]
      | .ok () =>
        if isIgnored o (Disk.pathBelow root place) then []
        else if !Mode.mayRead mode then [.noListing place .denied]
        else []
  | .symlink _ | .socket _ => []

theorem reached_eq_ok_iff {α : Type} {p : Path} {mayReach : Bool} {result : Except SystemError α}
    {a : α} :
    reached p mayReach result = .ok a ↔
      p.bytes.length < Walk.pathLimit ∧ mayReach = true ∧ result = .ok a := by
  unfold reached
  by_cases hlong : p.bytes.length ≥ Walk.pathLimit
  · simp [hlong, Nat.not_lt.mpr hlong]
  · cases mayReach <;> simp [hlong, Nat.not_le.mp hlong]

section Looking

variable {d : Disk} {root : Path} {start : Place} {n k : Node} {place : Place}
  (hroot : d.lookUp root = .ok (start, n)) (hd : d.top.Sound)
include hroot hd

/-- Only the length of the path and the directories on the way decide, where no link stands. -/
theorem lookUp_eq_reached (hk : n.at? place = some k) (hlink : k.isSymlink = false) :
    d.lookUp (Disk.pathBelow root place) =
      (reached (Disk.pathBelow root place) (n.mayPass place) (.ok (start ++ place, k))).mapError
        .system := by
  rw [Disk.lookUp_below hroot hd hk hlink, reached]
  split
  · rfl
  · split
    · rfl
    · rfl

theorem contents_eq_reached {mode : Nat} {data : Bytes}
    (hk : n.at? place = some (.file mode data)) :
    d.contents (Disk.pathBelow root place) =
      (reached (Disk.pathBelow root place) (n.mayPass place)
        (Disk.read (.file mode data))).mapError .system := by
  rw [Disk.contents, lookUp_eq_reached hroot hd hk rfl]
  unfold reached
  split
  · rfl
  · split
    · rfl
    · rfl

theorem exists_lookUp_iff (hk : n.at? place = some k) (hlink : k.isSymlink = false) :
    (∃ found, d.lookUp (Disk.pathBelow root place) = .ok found) ↔
      reached (Disk.pathBelow root place) (n.mayPass place) (.ok ()) = .ok () := by
  simp [lookUp_eq_reached hroot hd hk hlink, mapError_eq_ok_iff, reached_eq_ok_iff]

theorem lookUp_eq_error_iff (hk : n.at? place = some k) (hlink : k.isSymlink = false)
    {e : SystemError} :
    d.lookUp (Disk.pathBelow root place) = .error (.system e) ↔
      reached (Disk.pathBelow root place) (n.mayPass place) (.ok ()) = .error e := by
  rw [lookUp_eq_reached hroot hd hk hlink]
  unfold reached
  split
  · simp [Except.mapError]
  · split <;> simp [Except.mapError]

end Looking

theorem visitsIn_eq_flatMap (o : ScanOptions) (root : Path) (depth : Nat) (mayReach : Bool)
    (place : Place) (entries : List (Name × Node)) :
    visitsIn o root depth mayReach place entries =
      entries.flatMap (visitEntry o root depth mayReach place) := by
  induction entries with
  | nil => rfl
  | cons entry entries ih => rw [visitsIn, ih, List.flatMap_cons]

theorem mem_visitEntry_iff {o : ScanOptions} {root : Path} {depth : Nat} {mayReach : Bool}
    {place : Place} {name : Name} {child : Node} {v : Visit} :
    v ∈ visitEntry o root depth mayReach place (name, child) ↔
      ¬ (o.flat = true ∧ child.isDirectory = true) ∧
        v ∈ visits o root (depth + 1) mayReach (place ++ [name]) child := by
  rw [visitEntry]
  cases o.flat with
  | false => simp
  | true => cases child.isDirectory <;> simp

section Entering

variable {d : Disk} {o : ScanOptions} {root : Path} {n : Node} {place : Place}

theorem comes_root : Comes d o root n [] n where
  stands := rfl
  parent := fun directory name h => by simp at h
  listed := fun _ _ => rfl

/-- A directory that a scan comes upon is gone through if it opens and is not too deep. -/
theorem Comes.enters {k : Node} (hk : Comes d o root n place k) (hopens : Opens d o root n place)
    (hshallow : place.length ≤ o.maxDepth) : Enters d o root n place where
  opens := by
    intro q hq
    rcases List.eq_nil_or_concat' place with rfl | ⟨directory, name, rfl⟩
    · rwa [List.prefix_nil.mp hq]
    · rcases List.prefix_concat_iff.mp hq with rfl | hq
      · exact hopens
      · exact (hk.parent directory name rfl).opens q hq
  shallow := hshallow
  flat := by
    intro hflat
    obtain ⟨mode, entries, hat, _⟩ := hopens
    have he : k = .directory mode entries := Option.some.inj (hk.stands.symm.trans hat)
    exact hk.listed (he ▸ rfl) hflat

/-- Nothing is gone through below a root that cannot be looked up. -/
theorem Enters.exists_lookUp_root (h : Enters d o root n place) :
    ∃ found, d.lookUp root = .ok found := by
  obtain ⟨_, _, _, hlook, _⟩ := h.opens [] List.nil_prefix
  exact hlook

/-- What is below a directory is reached by going through it. -/
theorem Comes.enters_above {first rest : Place} {k : Node}
    (hk : Comes d o root n (first ++ rest) k) (hrest : rest ≠ []) : Enters d o root n first := by
  rcases List.eq_nil_or_concat' rest with rfl | ⟨before, name, rfl⟩
  · exact absurd rfl hrest
  · have hparent := hk.parent (first ++ before) name (by simp)
    refine ⟨?_, ?_, ?_⟩
    · exact fun q hq => hparent.opens q (hq.trans (List.prefix_append first before))
    · have hlength := hparent.shallow
      rw [List.length_append] at hlength
      omega
    · exact fun hflat => (List.append_eq_nil_iff.mp (hparent.flat hflat)).1

theorem Enters.comes_child (h : Enters d o root n place) {mode : Nat}
    {entries : List (Name × Node)} (hat : n.at? place = some (.directory mode entries))
    {name : Name} {child : Node} (hchild : entries.lookup name = some child)
    (hflat : ¬ (o.flat = true ∧ child.isDirectory = true)) :
    Comes d o root n (place ++ [name]) child where
  stands := Node.at?_concat_eq_some_iff.mpr ⟨mode, entries, hat, hchild⟩
  parent := by
    intro directory other he
    rw [(List.append_inj' he rfl).1] at h
    exact h
  listed := fun hdirectory hf => absurd ⟨hf, hdirectory⟩ hflat

end Entering

section Visiting

variable {d : Disk} {o : ScanOptions} {root : Path} {start : Place} {n : Node} {place : Place}
  (hroot : d.lookUp root = .ok (start, n)) (hd : d.top.Sound)
include hroot hd

/-- A scan that goes through a directory makes the visits to its entries, and none to itself. -/
theorem visits_of_enters (h : Enters d o root n place) {mode : Nat} {entries : List (Name × Node)}
    (hat : n.at? place = some (.directory mode entries)) :
    n.mayPass place = true ∧
      visits o root place.length (n.mayPass place) place (.directory mode entries) =
        entries.flatMap (visitEntry o root place.length (Mode.maySearch mode) place) ∧
      visitsAt o root n place (.directory mode entries) = [] := by
  obtain ⟨m, es, hm, hlook, hheeded, hread⟩ := h.opens place (List.prefix_refl place)
  obtain ⟨rfl, rfl⟩ := Node.directory.inj (Option.some.inj (hm.symm.trans hat))
  have hreached := (exists_lookUp_iff hroot hd hat rfl).mp hlook
  have hshallow : ¬ place.length > o.maxDepth := Nat.not_lt.mpr h.shallow
  have hheeded := isIgnored_eq_false_iff.mpr hheeded
  refine ⟨(reached_eq_ok_iff.mp hreached).2.1, ?_, ?_⟩
  · rw [visits, if_neg hshallow, hreached]
    simp [hheeded, hread, visitsIn_eq_flatMap]
  · simp [visitsAt, hshallow, hreached, hheeded, hread]

/-- A directory that a scan comes upon and does not go through is itself the only visit. -/
theorem visits_of_not_enters {mode : Nat} {entries : List (Name × Node)}
    (hcomes : Comes d o root n place (.directory mode entries)) (h : ¬ Enters d o root n place) :
    visits o root place.length (n.mayPass place) place (.directory mode entries) =
      visitsAt o root n place (.directory mode entries) := by
  rw [visits, visitsAt]
  by_cases hdeep : place.length > o.maxDepth
  · rw [if_pos hdeep, if_pos hdeep]
  rw [if_neg hdeep, if_neg hdeep]
  cases hreached : reached (Disk.pathBelow root place) (n.mayPass place)
      (.ok () : Except SystemError Unit) with
  | error e => rfl
  | ok _ =>
    cases hheeded : isIgnored o (Disk.pathBelow root place) with
    | true => rfl
    | false =>
      cases hread : Mode.mayRead mode with
      | false => rfl
      | true =>
        have hopens : Opens d o root n place :=
          ⟨mode, entries, hcomes.stands,
            (exists_lookUp_iff hroot hd hcomes.stands rfl).mpr hreached,
            isIgnored_eq_false_iff.mp hheeded, hread⟩
        exact absurd (hcomes.enters hopens (Nat.not_lt.mp hdeep)) h

omit hroot hd in
theorem not_enters_of_isDirectory {k : Node} (hk : n.at? place = some k)
    (h : k.isDirectory = false) : ¬ Enters d o root n place := by
  intro henters
  obtain ⟨mode, entries, hat, _⟩ := henters.opens place (List.prefix_refl place)
  have he : k = .directory mode entries := Option.some.inj (hk.symm.trans hat)
  rw [he] at h
  cases h

omit hroot hd in
theorem exists_below_iff_of_not_enters {k : Node} (hcomes : Comes d o root n place k)
    (h : ¬ Enters d o root n place) (v : Visit) :
    (∃ rest j, Comes d o root n (place ++ rest) j ∧ v ∈ visitsAt o root n (place ++ rest) j) ↔
      v ∈ visitsAt o root n place k := by
  constructor
  · intro h
    obtain ⟨rest, j, hj, hv⟩ := h
    have hrest : rest = [] := by
      by_contra hne
      exact h (hj.enters_above hne)
    subst hrest
    rw [List.append_nil] at hj hv
    rwa [Option.some.inj (hcomes.stands.symm.trans hj.stands)]
  · intro hv
    exact ⟨[], k, by rwa [List.append_nil], by rwa [List.append_nil]⟩

omit hroot hd in
/-- What is visited below a directory, and is not that directory, is an entry of it or below one. -/
theorem exists_below_iff_of_directory {mode : Nat} {entries : List (Name × Node)}
    (hat : n.at? place = some (.directory mode entries))
    (hself : visitsAt o root n place (.directory mode entries) = []) (v : Visit) :
    (∃ rest j, Comes d o root n (place ++ rest) j ∧ v ∈ visitsAt o root n (place ++ rest) j) ↔
      ∃ name child, entries.lookup name = some child ∧
        ¬ (o.flat = true ∧ child.isDirectory = true) ∧
        ∃ rest j, Comes d o root n (place ++ [name] ++ rest) j ∧
          v ∈ visitsAt o root n (place ++ [name] ++ rest) j := by
  constructor
  · intro h
    obtain ⟨rest, j, hj, hv⟩ := h
    cases rest with
    | nil =>
      rw [List.append_nil] at hj hv
      rw [Option.some.inj (hj.stands.symm.trans hat), hself] at hv
      cases hv
    | cons name rest =>
      rw [List.append_cons place name rest] at hj hv
      have hstands := hj.stands
      rw [Node.at?_append, Option.bind_eq_some_iff] at hstands
      obtain ⟨child, hchild, hrest⟩ := hstands
      obtain ⟨m, es, hm, hlookup⟩ := Node.at?_concat_eq_some_iff.mp hchild
      obtain ⟨rfl, rfl⟩ := Node.directory.inj (Option.some.inj (hm.symm.trans hat))
      refine ⟨name, child, hlookup, ?_, rest, j, hj, hv⟩
      intro h
      obtain ⟨hflat, hdirectory⟩ := h
      by_cases hnil : rest = []
      · subst hnil
        have he : child = j := Option.some.inj hrest
        rw [List.append_nil] at hj
        have := hj.listed (he ▸ hdirectory) hflat
        simp at this
      · have := (hj.enters_above hnil).flat hflat
        simp at this
  · intro h
    obtain ⟨name, child, _, _, rest, j, hj, hv⟩ := h
    rw [← List.append_cons place name rest] at hj hv
    exact ⟨name :: rest, j, hj, hv⟩

/-- The visits to a node and to what is below it are the visits to the places below it that the scan
comes upon. -/
theorem mem_visits_below_iff {k : Node} (hcomes : Comes d o root n place k) (v : Visit) :
    v ∈ visits o root place.length (n.mayPass place) place k ↔
      ∃ rest j, Comes d o root n (place ++ rest) j ∧ v ∈ visitsAt o root n (place ++ rest) j := by
  -- Node by node from the top: whether a directory is entered is known once the scan is there.
  induction k using Node.byEntries generalizing place with
  | file mode data =>
    have hnot : ¬ Enters d o root n place := not_enters_of_isDirectory hcomes.stands rfl
    rw [exists_below_iff_of_not_enters hcomes hnot, visits, visitsAt]
  | symlink target =>
    have hnot : ¬ Enters d o root n place := not_enters_of_isDirectory hcomes.stands rfl
    rw [exists_below_iff_of_not_enters hcomes hnot, visits, visitsAt]
  | socket mode =>
    have hnot : ¬ Enters d o root n place := not_enters_of_isDirectory hcomes.stands rfl
    rw [exists_below_iff_of_not_enters hcomes hnot, visits, visitsAt]
  | directory mode entries ih =>
    by_cases h : Enters d o root n place
    · obtain ⟨hpass, hvisits, hself⟩ := visits_of_enters hroot hd h hcomes.stands
      have hentries := (Disk.sound_of_lookUp hroot hd).at? hcomes.stands
      have hentry : ∀ name child, entries.lookup name = some child →
          ¬ (o.flat = true ∧ child.isDirectory = true) →
          (v ∈ visits o root (place.length + 1) (Mode.maySearch mode) (place ++ [name]) child ↔
            ∃ rest j, Comes d o root n (place ++ [name] ++ rest) j ∧
              v ∈ visitsAt o root n (place ++ [name] ++ rest) j) := by
        intro name child hchild hflat
        have hbelow := ih (name, child) (mem_of_lookup hchild)
          (h.comes_child hcomes.stands hchild hflat)
        rwa [Node.mayPass_concat hcomes.stands (by rw [hchild]; rfl), hpass, Bool.true_and,
          List.length_append] at hbelow
      rw [hvisits, exists_below_iff_of_directory hcomes.stands hself, List.mem_flatMap]
      constructor
      · intro h
        obtain ⟨⟨name, child⟩, hmem, hv⟩ := h
        obtain ⟨hflat, hv⟩ := mem_visitEntry_iff.mp hv
        have hchild := hentries.lookup_eq_some_iff.mpr hmem
        exact ⟨name, child, hchild, hflat, (hentry name child hchild hflat).mp hv⟩
      · intro h
        obtain ⟨name, child, hchild, hflat, hbelow⟩ := h
        refine ⟨(name, child), mem_of_lookup hchild, mem_visitEntry_iff.mpr ⟨hflat, ?_⟩⟩
        exact (hentry name child hchild hflat).mpr hbelow
    · rw [visits_of_not_enters hroot hd hcomes h, exists_below_iff_of_not_enters hcomes h]

theorem mem_visits_iff (v : Visit) :
    v ∈ visits o root 0 true [] n ↔
      ∃ place k, Comes d o root n place k ∧ v ∈ visitsAt o root n place k := by
  have hcomes : Comes d o root n [] n := comes_root
  have h := mem_visits_below_iff hroot hd hcomes v
  rw [List.length_nil, Node.mayPass] at h
  simpa only [List.nil_append] using h

end Visiting

section Kinds

variable {d : Disk} {o : ScanOptions} {root : Path} {start : Place} {n : Node} {place : Place}
  {v : Visit} (hroot : d.lookUp root = .ok (start, n)) (hd : d.top.Sound)
include hroot hd

theorem mem_visitsAt_file_iff {mode : Nat} {data : Bytes}
    (hk : n.at? place = some (.file mode data)) :
    v ∈ visitsAt o root n place (.file mode data) ↔
      ∃ result, v = .file place result ∧ Wanted o root place ∧
        d.contents (Disk.pathBelow root place) = result.mapError .system := by
  have hcontents : ∀ result, d.contents (Disk.pathBelow root place) = result.mapError .system ↔
      reached (Disk.pathBelow root place) (n.mayPass place) (Disk.read (.file mode data)) =
        result := by
    intro result
    rw [contents_eq_reached hroot hd hk]
    exact mapError_inj fun _ _ => Fault.system.inj
  simp only [visitsAt, visitFile, hcontents, ← isWanted_iff]
  cases isWanted o root place <;> simp

/-- A directory is itself a visit for one of three reasons. -/
theorem mem_visitsAt_directory_iff {mode : Nat} {entries : List (Name × Node)}
    (hk : n.at? place = some (.directory mode entries)) :
    v ∈ visitsAt o root n place (.directory mode entries) ↔
      v = .tooDeep place ∧ o.maxDepth < place.length ∨
      (∃ e, v = .noMetadata place e ∧ place.length ≤ o.maxDepth ∧
        d.lookUp (Disk.pathBelow root place) = .error (.system e)) ∨
      v = .noListing place .denied ∧ place.length ≤ o.maxDepth ∧
        (∃ found, d.lookUp (Disk.pathBelow root place) = .ok found) ∧
        ¬ Ignored o (Disk.pathBelow root place) ∧ Mode.mayRead mode = false := by
  simp only [exists_lookUp_iff hroot hd hk rfl, lookUp_eq_error_iff hroot hd hk rfl,
    ← isIgnored_eq_false_iff]
  rw [visitsAt]
  by_cases hdeep : place.length > o.maxDepth
  · simp [hdeep, Nat.not_le.mpr hdeep]
  · cases reached (Disk.pathBelow root place) (n.mayPass place)
        (.ok () : Except SystemError Unit) with
    | error e => simp [hdeep, Nat.not_lt.mp hdeep]
    | ok _ =>
      cases isIgnored o (Disk.pathBelow root place) with
      | true => simp [hdeep]
      | false => cases Mode.mayRead mode <;> simp [hdeep, Nat.not_lt.mp hdeep]

theorem file_mem_visits_iff {result : Except SystemError Bytes} :
    .file place result ∈ visits o root 0 true [] n ↔
      (∃ mode data, Comes d o root n place (.file mode data)) ∧ Wanted o root place ∧
        d.contents (Disk.pathBelow root place) = result.mapError .system := by
  rw [mem_visits_iff hroot hd]
  constructor
  · intro h
    obtain ⟨other, k, hcomes, hv⟩ := h
    cases k with
    | file mode data =>
      obtain ⟨found, he, hfound⟩ := (mem_visitsAt_file_iff hroot hd hcomes.stands).mp hv
      obtain ⟨rfl, rfl⟩ := Visit.file.inj he
      exact ⟨⟨mode, data, hcomes⟩, hfound⟩
    | directory mode entries => simp [mem_visitsAt_directory_iff hroot hd hcomes.stands] at hv
    | symlink target => cases hv
    | socket mode => cases hv
  · intro h
    obtain ⟨⟨mode, data, hcomes⟩, hfound⟩ := h
    exact ⟨place, _, hcomes,
      (mem_visitsAt_file_iff hroot hd hcomes.stands).mpr ⟨result, rfl, hfound⟩⟩

/-- All other visits are to directories. -/
theorem mem_visits_iff_directory (hv : ∀ place result, v ≠ .file place result) :
    v ∈ visits o root 0 true [] n ↔
      ∃ mode entries, Comes d o root n v.place (.directory mode entries) ∧
        v ∈ visitsAt o root n v.place (.directory mode entries) := by
  rw [mem_visits_iff hroot hd]
  constructor
  · intro h
    obtain ⟨other, k, hcomes, hmem⟩ := h
    cases k with
    | file mode data =>
      obtain ⟨result, he, _⟩ := (mem_visitsAt_file_iff hroot hd hcomes.stands).mp hmem
      exact absurd he (hv other result)
    | directory mode entries =>
      have hplace : v.place = other := by
        rcases (mem_visitsAt_directory_iff hroot hd hcomes.stands).mp hmem with
          ⟨rfl, _⟩ | ⟨e, rfl, _⟩ | ⟨rfl, _⟩ <;> rfl
      subst hplace
      exact ⟨mode, entries, hcomes, hmem⟩
    | symlink target => cases hmem
    | socket mode => cases hmem
  · intro h
    obtain ⟨mode, entries, hcomes, hmem⟩ := h
    exact ⟨v.place, _, hcomes, hmem⟩

end Kinds

/-- Either a directory is visited as a whole, once or not at all and whatever is in it, or its
entries are visited. -/
theorem visits_listing (o : ScanOptions) (root : Path) (depth : Nat) (mayReach : Bool)
    (place : Place) (mode : Nat) :
    (∃ vs, (vs = [] ∨ ∃ v : Visit, v.place = place ∧ vs = [v]) ∧
        ∀ entries, visits o root depth mayReach place (.directory mode entries) = vs) ∨
      ∀ entries, visits o root depth mayReach place (.directory mode entries) =
        entries.flatMap (visitEntry o root depth (Mode.maySearch mode) place) := by
  simp only [visits, visitsIn_eq_flatMap]
  split
  · exact Or.inl ⟨_, Or.inr ⟨_, rfl, rfl⟩, fun _ => rfl⟩
  · split
    · exact Or.inl ⟨_, Or.inr ⟨_, rfl, rfl⟩, fun _ => rfl⟩
    · split
      · exact Or.inl ⟨_, Or.inl rfl, fun _ => rfl⟩
      · split
        · exact Or.inl ⟨_, Or.inr ⟨_, rfl, rfl⟩, fun _ => rfl⟩
        · exact Or.inr fun _ => rfl

/-- All that a directory can give: one visit to itself, nothing, or the visits to its entries. -/
theorem visits_directory (o : ScanOptions) (root : Path) (depth : Nat) (mayReach : Bool)
    (place : Place) (mode : Nat) (entries : List (Name × Node)) :
    let given := visits o root depth mayReach place (.directory mode entries)
    (∃ v, v.place = place ∧ given = [v]) ∨ given = [] ∨
      given = entries.flatMap (visitEntry o root depth (Mode.maySearch mode) place) := by
  rcases visits_listing o root depth mayReach place mode with
    ⟨vs, rfl | ⟨v, hv, rfl⟩, hall⟩ | hall
  · exact Or.inr (Or.inl (hall entries))
  · exact Or.inl ⟨v, hv, hall entries⟩
  · exact Or.inr (Or.inr (hall entries))

theorem place_of_mem_visitFile {o : ScanOptions} {root : Path} {place : Place}
    {bytes : Except SystemError Bytes} {v : Visit} (h : v ∈ visitFile o root place bytes) :
    v.place = place := by
  unfold visitFile at h
  split at h
  · rw [List.mem_singleton.mp h]
    rfl
  · cases h

theorem prefix_of_mem_visits {o : ScanOptions} {root : Path} {depth : Nat} {mayReach : Bool}
    {place : Place} {k : Node} {v : Visit} (h : v ∈ visits o root depth mayReach place k) :
    place <+: v.place := by
  induction k using Node.byEntries generalizing depth mayReach place with
  | file mode data =>
    obtain rfl := place_of_mem_visitFile h
    exact List.prefix_refl _
  | symlink target => cases h
  | socket mode => cases h
  | directory mode entries ih =>
    rcases visits_directory o root depth mayReach place mode entries with
      ⟨w, hw, he⟩ | he | he
    · obtain rfl : v = w := List.mem_singleton.mp (he ▸ h)
      obtain rfl := hw
      exact List.prefix_refl _
    · rw [he] at h
      cases h
    · rw [he, List.mem_flatMap] at h
      obtain ⟨⟨name, child⟩, hmem, hv⟩ := h
      have hbelow := ih _ hmem (mem_visitEntry_iff.mp hv).2
      exact (List.prefix_append place [name]).trans hbelow

/-- No place is visited twice. -/
theorem nodup_visits {o : ScanOptions} {root : Path} {depth : Nat} {mayReach : Bool}
    {place : Place} {k : Node} (hk : k.Sound) :
    ((visits o root depth mayReach place k).map Visit.place).Nodup := by
  induction k using Node.byEntries generalizing depth mayReach place with
  | file mode data =>
    rw [visits, visitFile]
    split
    · simp
    · simp
  | symlink target => simp [visits]
  | socket mode => simp [visits]
  | directory mode entries ih =>
    rcases visits_directory o root depth mayReach place mode entries with
      ⟨w, hw, he⟩ | he | he
    · simp [he]
    · simp [he]
    · rw [he, List.map_flatMap, List.nodup_flatMap]
      refine ⟨?_, ?_⟩
      · rintro ⟨name, child⟩ hmem
        rw [visitEntry]
        split
        · simp
        · exact ih _ hmem (hk.children _ hmem)
      · apply (List.pairwise_map.mp hk.once).imp
        rintro ⟨a, first⟩ ⟨b, second⟩ hne
        apply List.disjoint_left.mpr
        intro x hfirst hsecond
        obtain ⟨v, hv, rfl⟩ := List.mem_map.mp hfirst
        obtain ⟨w, hw, he⟩ := List.mem_map.mp hsecond
        have hpa := prefix_of_mem_visits (mem_visitEntry_iff.mp hv).2
        have hpb := prefix_of_mem_visits (mem_visitEntry_iff.mp hw).2
        rw [he] at hpb
        have hsame := (List.prefix_of_prefix_length_le hpa hpb (by simp)).eq_of_length (by simp)
        simp only [List.append_cancel_left_eq, List.cons.injEq, and_true] at hsame
        exact hne hsame

end Marginalia.Scan
