import Marginalia.Proofs.Tree.Exploring
import Marginalia.Proofs.Tree.Parts
/-!
The canonical path of what a path leads to. It leads to the same place, whatever the path was, and
it is the same in a part of the disk as in the whole, if the path leads somewhere in both.
-/

namespace Marginalia

namespace Disk

/-- The absolute path of a place leads there from any working directory, if it is short enough and
the directories on the way let it pass. -/
theorem find_pathOf_eq_ok_iff {d : Disk} (hd : d.top.Sound) (hdirectory : d.top.isDirectory = true)
    {place : Place} {n : Node} (hn : d.top.at? place = some n) (hlink : n.isSymlink = false)
    {found : Place × Node} :
    d.find (pathOf place) = .ok found ↔
      (pathOf place).bytes.length < Walk.pathLimit ∧ d.top.mayPass place = true ∧
        found = (place, n) := by
  rw [pathOf, find_below (lookUp_slash hdirectory) hd hn hlink, ← pathOf, List.nil_append]
  by_cases hlong : (pathOf place).bytes.length ≥ Walk.pathLimit
  · simp [hlong, Nat.not_lt.mpr hlong]
  · cases d.top.mayPass place with
    | false => simp [hlong]
    | true => simp [hlong, Nat.not_le.mp hlong, eq_comm]

theorem checkBytes_pathOf {d : Disk} (hd : d.top.Sound) {place : Place} {n : Node}
    (hn : d.top.at? place = some n) : checkBytes (pathOf place) = .ok () :=
  checkBytes_eq_ok_iff.mpr (Path.zero_not_mem_pathBelow (by decide) (hd.names_of_at? hn))

/-- A walk that goes through places near to the root only ends at one whose path is short. -/
theorem length_pathOf_of_leads {d : Disk} (hd : d.top.Sound) {links : Nat} {place : Place}
    {segments : List Bytes} (h : Walk.Leads (d.top.cut Walk.pathLimit) links [] segments place)
    (hne : segments ≠ []) {n : Node} (hn : d.top.at? place = some n) :
    (pathOf place).bytes.length < Walk.pathLimit := by
  obtain ⟨segment, rest, rfl⟩ := List.exists_cons_of_ne_nil hne
  obtain ⟨_, _, hroot, _⟩ := h.first_step
  obtain ⟨m, hm, _⟩ := h.stands (Walk.stands_root hroot)
  rw [Node.at?_cut] at hm
  split at hm
  case isTrue hnear =>
    by_cases hnil : place = []
    · rw [hnil]
      decide
    · rw [Path.bytes_pathOf (hd.names_of_at? hn) hnil]
      exact hnear.resolve_left hnil
  case isFalse => cases hm

section Outset

variable {d : Disk} {p : Path} {start : Place} {n : Node}

theorem canonical_of_no_name (h : (d.outset p).2 = []) : d.canonical p = pathOf (d.outset p).1 :=
  if_pos h

theorem canonical_of_name (h : (d.outset p).2 ≠ []) :
    d.canonical p =
      match Walk.within (d.top.cut Walk.pathLimit) Walk.linkLimit []
        ((d.outset p).1 ++ (d.outset p).2) with
      | .ok stop => pathOf stop
      | .error _ => p :=
  if_neg h

variable (hd : d.top.Sound) (hp : d.lookUp p = .ok (start, n))
include hp

theorem leads_outset :
    ∃ links ≤ Walk.linkLimit, Walk.Leads d.top links (d.outset p).1 (d.outset p).2 start := by
  obtain ⟨_, _, ⟨links, hlinks, hleads⟩, _⟩ := lookUp_eq_ok_iff_leads.mp hp
  exact ⟨links, hlinks, hleads.upToName⟩

theorem stands_outset : Walk.Stands d.top (d.outset p).1 := by
  obtain ⟨_, _, hleads⟩ := leads_outset hp
  exact hleads.stands_start ⟨n, (lookUp_eq_ok_iff.mp hp).2.2, isSymlink_of_lookUp hp⟩

/-- A path without names leads to a directory, and where that is takes no looking up. -/
theorem outset_eq_of_no_name (h : (d.outset p).2 = []) :
    (d.outset p).1 = start ∧ n.isDirectory = true := by
  obtain ⟨_, _, ⟨_, _, hleads⟩, hn⟩ := lookUp_eq_ok_iff_leads.mp hp
  obtain ⟨mode, entries, hdirectory⟩ := hleads.exists_directory p.segments_ne_nil h
  obtain ⟨_, _, hrest⟩ := leads_outset hp
  rw [h] at hrest
  refine ⟨?_, ?_⟩
  · cases hrest
    rfl
  · rw [Option.some.inj (hn.symm.trans hdirectory)]
    rfl

include hd

/-- The way from the root leads to the same place as the path does, if it can be gone at all. -/
theorem leads_from_root_iff {stop : Place} :
    (∃ links ≤ Walk.linkLimit,
        Walk.Leads d.top links [] ((d.outset p).1 ++ (d.outset p).2) stop) ↔
      d.top.mayPass (d.outset p).1 = true ∧ stop = start := by
  obtain ⟨links, hlinks, hleads⟩ := leads_outset hp
  rw [Walk.leads_place_append_iff hd (stands_outset hp), hleads.exists_leads_iff hlinks]

/-- What a path leads to is found by its canonical path as well, at the same place. Only a directory
that the path gets to without names may not be found by its absolute path. -/
theorem lookUp_canonical :
    d.lookUp (d.canonical p) = .ok (start, n) ∨
      n.isDirectory = true ∧ d.canonical p = pathOf start ∧
        ∃ e, d.find (d.canonical p) = .error e := by
  have hn := (lookUp_eq_ok_iff.mp hp).2.2
  have hbytes : checkBytes (pathOf start) = .ok () := checkBytes_pathOf hd hn
  have hfound := @find_pathOf_eq_ok_iff d hd (isDirectory_top_of_lookUp hp) start n hn
    (isSymlink_of_lookUp hp)
  by_cases hnone : (d.outset p).2 = []
  · obtain ⟨hplace, hdirectory⟩ := outset_eq_of_no_name hp hnone
    rw [canonical_of_no_name hnone, hplace]
    cases hfind : d.find (pathOf start) with
    | error e => exact Or.inr ⟨hdirectory, rfl, e, rfl⟩
    | ok found =>
      obtain ⟨_, _, rfl⟩ := hfound.mp hfind
      left
      rw [lookUp_of_checkBytes hbytes, hfind]
      rfl
  · left
    rw [canonical_of_name hnone]
    cases hwithin : Walk.within (d.top.cut Walk.pathLimit) Walk.linkLimit []
        ((d.outset p).1 ++ (d.outset p).2) with
    | error e => exact hp
    | ok place =>
      obtain ⟨links, hlinks, hcut⟩ := Walk.within_eq_ok_iff.mp hwithin
      have hleads := hcut.of_part (d.top.part_cut _)
      obtain ⟨_, rfl⟩ := (leads_from_root_iff hd hp).mp ⟨links, hlinks, hleads⟩
      have hpass : d.top.mayPass place = true := hleads.mayPass (by rw [Node.mayPass])
      have hshort := length_pathOf_of_leads hd hcut
        (List.append_ne_nil_of_right_ne_nil _ hnone) hn
      rw [lookUp_of_checkBytes hbytes, hfound.mpr ⟨hshort, hpass, rfl⟩]
      rfl

theorem lookUp_canonical_or_unfound :
    d.lookUp (d.canonical p) = .ok (start, n) ∨
      n.isDirectory = true ∧ ∀ found, d.lookUp (d.canonical p) ≠ .ok found := by
  rcases lookUp_canonical hd hp with hroot | ⟨hdirectory, _, e, he⟩
  · exact Or.inl hroot
  · exact Or.inr ⟨hdirectory, lookUp_ne_ok_of_find he⟩

theorem lookUp_canonical_of_found {found : Place × Node}
    (h : d.lookUp (d.canonical p) = .ok found) : d.lookUp (d.canonical p) = .ok (start, n) := by
  rcases lookUp_canonical_or_unfound hd hp with hroot | ⟨_, hunfound⟩
  · exact hroot
  · exact absurd h (hunfound found)

theorem lookUp_canonical_iff :
    d.lookUp (d.canonical p) = .ok (start, n) ↔
      (d.canonical p = pathOf start → ∃ found, d.find (pathOf start) = .ok found) := by
  constructor
  · intro hroot hpath
    rw [hpath, lookUp_eq_ok_iff, ← find_eq_ok_iff] at hroot
    exact ⟨_, hroot.2⟩
  · intro h
    rcases lookUp_canonical hd hp with hroot | ⟨_, hpath, e, he⟩
    · exact hroot
    · obtain ⟨_, hfind⟩ := h hpath
      cases (hpath ▸ he).symm.trans hfind

theorem find_canonical_of_unfound (h : ∀ found, d.lookUp (d.canonical p) ≠ .ok found) :
    ∃ e, d.find (d.canonical p) = .error e := by
  rcases lookUp_canonical hd hp with hroot | ⟨_, _, he⟩
  · exact absurd hroot (h _)
  · exact he

end Outset

/-- One disk is a part of another: it has the same working directory and fewer nodes. -/
structure Part (d other : Disk) : Prop where
  home : d.home = other.home
  top : d.top.Part other.top

section Part

variable {d other : Disk} (h : d.Part other) {p : Path} {start start' : Place} {n m : Node}
  (hn : d.lookUp p = .ok (start, n)) (hm : other.lookUp p = .ok (start', m))
include h hn hm

/-- A path that leads somewhere in a part of a disk leads to the same place in the whole of it. -/
theorem Part.lookUp_eq : start = start' := by
  obtain ⟨_, _, ⟨_, _, hleads⟩, _⟩ := lookUp_eq_ok_iff_leads.mp hn
  obtain ⟨_, _, ⟨_, _, hleads'⟩, _⟩ := lookUp_eq_ok_iff_leads.mp hm
  rw [h.home] at hleads
  exact (hleads.of_part h.top).functional hleads'

theorem Part.canonical_eq (hd : d.top.Sound) (hother : other.top.Sound) :
    d.canonical p = other.canonical p := by
  have houtset : d.outset p = other.outset p := by
    rw [outset, outset, h.home]
  by_cases hnone : (other.outset p).2 = []
  · rw [canonical_of_no_name (houtset ▸ hnone), canonical_of_no_name hnone, houtset]
  rw [canonical_of_name (houtset ▸ hnone), canonical_of_name hnone, houtset]
  cases hwhole : Walk.within (other.top.cut Walk.pathLimit) Walk.linkLimit []
      ((other.outset p).1 ++ (other.outset p).2) with
  | ok place =>
    obtain ⟨i, hi, hcut⟩ := Walk.within_eq_ok_iff.mp hwhole
    have hnear := hcut.of_part (other.top.part_cut _)
    obtain ⟨hpass, _⟩ := (leads_from_root_iff hother hm).mp ⟨i, hi, hnear⟩
    obtain ⟨k, hk, _⟩ := stands_outset hn
    have hpart : d.top.mayPass (d.outset p).1 = true := by
      rw [h.top.mayPass_eq hk, houtset, hpass]
    obtain ⟨j, _, hleads⟩ := (leads_from_root_iff hd hn).mpr ⟨hpart, rfl⟩
    rw [houtset] at hleads
    rw [(hcut.meets (h.top.meets_cut _) hleads).within hi]
  | error e =>
    -- What is near in the part would be near in the whole.
    cases hpart : Walk.within (d.top.cut Walk.pathLimit) Walk.linkLimit []
        ((other.outset p).1 ++ (other.outset p).2) with
    | error e' => rfl
    | ok place =>
      obtain ⟨i, hi, hleads⟩ := Walk.within_eq_ok_iff.mp hpart
      have hfound := (hleads.of_part (h.top.cut _)).within hi
      cases hwhole.symm.trans hfound

/-- By its absolute path it is found in both or in neither. -/
theorem Part.find_pathOf_iff (hd : d.top.Sound) (hother : other.top.Sound) :
    (∃ found, d.find (pathOf start) = .ok found) ↔
      ∃ found, other.find (pathOf start) = .ok found := by
  obtain rfl := h.lookUp_eq hn hm
  have hstart := (lookUp_eq_ok_iff.mp hn).2.2
  have hstart' := (lookUp_eq_ok_iff.mp hm).2.2
  simp [find_pathOf_eq_ok_iff hd (isDirectory_top_of_lookUp hn) hstart (isSymlink_of_lookUp hn),
    find_pathOf_eq_ok_iff hother (isDirectory_top_of_lookUp hm) hstart' (isSymlink_of_lookUp hm),
    h.top.mayPass_eq hstart]

/-- So its canonical path is of use in both or in neither. -/
theorem Part.lookUp_canonical_iff (hd : d.top.Sound) (hother : other.top.Sound) :
    d.lookUp (d.canonical p) = .ok (start, n) ↔
      other.lookUp (other.canonical p) = .ok (start', m) := by
  rw [Disk.lookUp_canonical_iff hd hn, Disk.lookUp_canonical_iff hother hm,
    h.canonical_eq hn hm hd hother, h.find_pathOf_iff hn hm hd hother, h.lookUp_eq hn hm]

end Part

theorem part_drop (d : Disk) (place : Place) (name : Name) : (d.drop place name).Part d :=
  ⟨rfl, Node.part_drop d.top place name⟩

/-- Where a path still leads somewhere without an entry below, it leads to what it led to before,
without that entry. -/
theorem lookUp_drop {d : Disk} {p : Path} {start : Place} {n : Node}
    (hn : d.lookUp p = .ok (start, n)) (directory : Place) (name : Name) {place : Place} {m : Node}
    (hm : (d.drop (start ++ directory) name).lookUp p = .ok (place, m)) :
    place = start ∧ m = n.drop directory name := by
  have hpart := d.part_drop (start ++ directory) name
  obtain rfl := hpart.lookUp_eq hm hn
  have hstart := (lookUp_eq_ok_iff.mp hn).2.2
  have hstands := (lookUp_eq_ok_iff.mp hm).2.2
  rw [Disk.drop, Node.drop, Node.at?_modifyAt_above, hstart] at hstands
  exact ⟨rfl, (Option.some.inj hstands).symm⟩

end Disk

end Marginalia
