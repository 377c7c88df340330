import Marginalia.Proofs.Tree.DeadEnds
import Marginalia.Proofs.Tree.Exploring
/-!
Which entry a path names, and where the path leads if something stands there.
-/

namespace Marginalia

/-- The segments of a path up to its last name: the slashes at its end are left out. -/
def Path.named (p : Path) : List Bytes := (p.segments.reverse.dropWhile (· == [])).reverse

namespace Node

theorem listing_eq_ok_iff {top : Node} {place : Place} {mode : Nat}
    {entries : List (Name × Node)} :
    top.listing place = .ok (mode, entries) ↔
      top.at? place = some (.directory mode entries) := by
  unfold listing
  split
  · simp [*]
  · rename_i hnot
    simp only [reduceCtorEq, false_iff]
    exact hnot mode entries

theorem slot_eq_ok_iff {top : Node} {here : Place} {p : Path} {s : Slot} :
    top.slot here p = .ok s ↔
      checkLength p = .ok () ∧
      Walk.within top Walk.linkLimit (Walk.origin p here) p.named.dropLast = .ok s.directory ∧
      (∃ mode entries, top.at? s.directory = some (.directory mode entries) ∧
        Mode.maySearch mode = true) ∧
      s.name = p.named.getLastD [] ∧ s.slashed = decide (p.named.length < p.segments.length) := by
  unfold slot
  simp only [bind_eq_ok_iff]
  constructor
  · intro h
    obtain ⟨_, hlength, place, hplace, ⟨mode, entries⟩, hlisting, hs⟩ := h
    by_cases hsearch : Mode.maySearch mode = true
    · rw [if_pos hsearch] at hs
      obtain rfl := Except.ok.inj hs
      exact ⟨hlength, hplace, ⟨mode, entries, listing_eq_ok_iff.mp hlisting, hsearch⟩, rfl, rfl⟩
    · rw [if_neg hsearch] at hs
      cases hs
  · intro h
    obtain ⟨hlength, hplace, ⟨mode, entries, hnode, hsearch⟩, hname, hslashed⟩ := h
    refine ⟨(), hlength, s.directory, hplace, (mode, entries), listing_eq_ok_iff.mpr hnode, ?_⟩
    obtain ⟨directory, name, slashed⟩ := s
    obtain rfl : name = _ := hname
    obtain rfl : slashed = _ := hslashed
    rw [if_pos hsearch]
    rfl

/-- A path names the same entry in two trees that differ in a dead end only. -/
theorem slot_sameBut {n m : Node} {place : Place} {name : Name}
    (h : SameBut (place ++ [name]) n m) (hdead : Walk.DeadEnd n place name) {here : Place}
    {p : Path} {s : Slot} (hs : n.slot here p = .ok s) : m.slot here p = .ok s := by
  obtain ⟨hlength, hplace, ⟨mode, entries, hnode, hsearch⟩, hname, hslashed⟩ :=
    slot_eq_ok_iff.mp hs
  obtain ⟨links, hlinks, hleads⟩ := Walk.within_eq_ok_iff.mp hplace
  obtain ⟨others, hother, _⟩ := Walk.directory_sameBut h hdead hnode
  exact slot_eq_ok_iff.mpr ⟨hlength, (hleads.sameBut h hdead hnode).within hlinks,
    ⟨mode, others, hother, hsearch⟩, hname, hslashed⟩

theorem occupant_eq_ok_iff {top : Node} {s : Slot} {old : Option Node} :
    top.occupant s = .ok old ↔
      ∃ mode entries, top.at? s.directory = some (.directory mode entries) ∧
        Mode.maySearch mode = true ∧ s.name.length ≤ Walk.nameLimit ∧
        entries.lookup s.name = old := by
  unfold occupant
  constructor
  · intro h
    obtain ⟨⟨mode, entries⟩, hlisting, hold⟩ := bind_eq_ok_iff.mp h
    refine ⟨mode, entries, listing_eq_ok_iff.mp hlisting, ?_⟩
    simp only [Walk.enter] at hold
    cases hsearch : Mode.maySearch mode with
    | false => simp [hsearch] at hold
    | true =>
      by_cases hlong : s.name.length > Walk.nameLimit
      · simp [hsearch, hlong] at hold
      · refine ⟨rfl, Nat.not_lt.mp hlong, ?_⟩
        cases hl : entries.lookup s.name <;>
          simpa [hsearch, hlong, hl, pure, Except.pure] using hold
  · intro h
    obtain ⟨mode, entries, hnode, hsearch, hlength, hold⟩ := h
    apply bind_eq_ok_iff.mpr
    refine ⟨(mode, entries), listing_eq_ok_iff.mpr hnode, ?_⟩
    have hlong : ¬ s.name.length > Walk.nameLimit := Nat.not_lt.mpr hlength
    cases hl : entries.lookup s.name <;>
      simpa [Walk.enter, hsearch, hlong, hl, pure, Except.pure] using hold

theorem writablePlace_eq_ok_iff {top : Node} {s : Slot} {place : Place} :
    top.writablePlace s = .ok place ↔
      s.directory = place ∧
      ∃ mode entries, top.at? place = some (.directory mode entries) ∧
        Mode.mayWrite mode = true ∧ Mode.maySearch mode = true := by
  unfold writablePlace
  constructor
  · intro h
    obtain ⟨⟨mode, entries⟩, hlisting, hplace⟩ := bind_eq_ok_iff.mp h
    by_cases hmay : (Mode.mayWrite mode && Mode.maySearch mode) = true
    · simp only [if_pos hmay] at hplace
      obtain rfl := Except.ok.inj hplace
      exact ⟨rfl, mode, entries, listing_eq_ok_iff.mp hlisting, (Bool.and_eq_true _ _).mp hmay⟩
    · simp only [if_neg hmay] at hplace
      cases hplace
  · intro h
    obtain ⟨rfl, mode, entries, hnode, hmay⟩ := h
    apply bind_eq_ok_iff.mpr
    refine ⟨(mode, entries), listing_eq_ok_iff.mpr hnode, ?_⟩
    simp only [hmay.1, hmay.2]
    rfl

end Node

namespace Path

theorem named_prefix (p : Path) : p.named <+: p.segments := by
  have hsuffix : p.segments.reverse.dropWhile (· == []) <:+ p.segments.reverse :=
    List.dropWhile_suffix _
  rw [← List.reverse_prefix, List.reverse_reverse] at hsuffix
  exact hsuffix

/-- Without slashes at its end, all segments of a path are named. -/
theorem named_eq_segments {p : Path} (h : ¬ p.named.length < p.segments.length) :
    p.named = p.segments :=
  p.named_prefix.eq_of_length_le (Nat.not_lt.mp h)

theorem entryName_of_segment {p : Path} {name : Name} (hp : 0 ∉ p.bytes) (hname : Walk.IsName name)
    (hmem : name ∈ p.segments) (hlength : name.length ≤ Walk.nameLimit) : EntryName name := by
  refine ⟨hname.ne_nil, hname.ne_current, hname.ne_parentName, Cut.not_mem_of_mem_splitOn hmem, ?_,
    hlength⟩
  intro hzero
  exact hp (Cut.mem_of_mem_splitOn hmem hzero)

end Path

theorem Slot.isName_of_not_isMark {s : Slot} (h : s.isMark = false) : Walk.IsName s.name := by
  simp only [isMark, Bool.or_eq_false_iff, beq_eq_false_iff_ne] at h
  exact ⟨h.1.1, h.1.2, h.2⟩

namespace Disk

/-- The entry that a path names, whether it exists or not: the place of its directory, and the name
that the path ends in. -/
structure Names (d : Disk) (p : Path) (place : Place) (name : Name) : Prop where
  bytes : (0 : UInt8) ∉ p.bytes
  slot : d.top.slot d.home p = .ok ⟨place, name, false⟩
  proper : Path.EntryName name

theorem names_of_slot {d : Disk} {p : Path} {s : Slot} (hbytes : 0 ∉ p.bytes)
    (hslot : d.top.slot d.home p = .ok s) (hmark : s.isMark = false) (hslashed : s.slashed = false)
    (hlength : s.name.length ≤ Walk.nameLimit) : d.Names p s.directory s.name := by
  have hname := Slot.isName_of_not_isMark hmark
  obtain ⟨_, _, _, hlast, _⟩ := Node.slot_eq_ok_iff.mp hslot
  have hmem : s.name ∈ p.named := by
    have hne : p.named ≠ [] := by
      intro hnil
      rw [hnil] at hlast
      exact hname.ne_nil hlast
    rw [hlast, List.getLastD_eq_getLast?, List.getLast?_eq_some_getLast hne]
    exact List.getLast_mem hne
  obtain ⟨directory, name, slashed⟩ := s
  obtain rfl : slashed = false := hslashed
  exact ⟨hbytes, hslot,
    Path.entryName_of_segment hbytes hname (p.named_prefix.subset hmem) hlength⟩

namespace Names

variable {d : Disk} {p : Path} {place : Place} {name : Name} (h : d.Names p place name)
include h

theorem isName : Walk.IsName name := Walk.isName_of_entryName h.proper

theorem directory : ∃ mode entries, d.top.at? place = some (.directory mode entries) ∧
    Mode.maySearch mode = true := by
  obtain ⟨_, _, hdirectory, _⟩ := Node.slot_eq_ok_iff.mp h.slot
  exact hdirectory

theorem isMark_eq_false : Slot.isMark ⟨place, name, false⟩ = false := by
  simp [Slot.isMark, h.proper.ne_nil, h.proper.ne_current, h.proper.ne_parentName]

theorem occupant_eq :
    d.top.occupant ⟨place, name, false⟩ = .ok (d.top.at? (place ++ [name])) := by
  obtain ⟨mode, entries, hdirectory, hsearch⟩ := h.directory
  apply Node.occupant_eq_ok_iff.mpr
  exact ⟨mode, entries, hdirectory, hsearch, h.proper.length_le,
    (Node.at?_concat_of_directory hdirectory name).symm⟩

theorem segments_eq : p.segments = p.named.dropLast ++ [name] := by
  obtain ⟨_, _, _, hlast, hslashed⟩ := Node.slot_eq_ok_iff.mp h.slot
  have hall := Path.named_eq_segments (of_decide_eq_false hslashed.symm)
  have hne : p.named ≠ [] := by
    rw [hall]
    exact List.splitOn_ne_nil Path.slash p.bytes
  have hname : name = p.named.getLast hne := by
    rw [show name = p.named.getLastD [] from hlast, List.getLastD_eq_getLast?,
      List.getLast?_eq_some_getLast hne]
    rfl
  rw [hname, List.dropLast_concat_getLast, hall]

/-- The way to the directory. -/
theorem leads : ∃ links ≤ Walk.linkLimit,
    Walk.Leads d.top links (Walk.origin p d.home) p.named.dropLast place := by
  obtain ⟨_, hplace, _⟩ := Node.slot_eq_ok_iff.mp h.slot
  exact Walk.within_eq_ok_iff.mp hplace

/-- The path leads to what stands in its entry, if that is no link. -/
theorem lookUp {n : Node} (hn : d.top.at? (place ++ [name]) = some n)
    (hlink : n.isSymlink = false) : d.lookUp p = .ok (place ++ [name], n) := by
  obtain ⟨links, hlinks, hleads⟩ := h.leads
  obtain ⟨mode, entries, hdirectory, hsearch⟩ := h.directory
  have hentry : Walk.enter mode entries name = .ok n := by
    apply Walk.enter_eq_ok_iff.mpr
    rw [← Node.at?_concat_of_directory hdirectory]
    exact ⟨hsearch, h.proper.length_le, hn⟩
  have hstep : Walk.Leads d.top 0 place [name] (place ++ [name]) :=
    .name hdirectory (h.isName.mark? _ _) hentry hlink (.done _)
  obtain ⟨hlength, _⟩ := Node.slot_eq_ok_iff.mp h.slot
  have hresolve : d.top.resolve d.home p = .ok (place ++ [name]) := by
    rw [Node.resolve, hlength, h.segments_eq]
    exact (hleads.append hstep).within hlinks
  exact lookUp_eq_ok_iff.mpr ⟨checkBytes_eq_ok_iff.mpr h.bytes, hresolve, hn⟩

/-- If a path leads to no directory, then no walk comes through its entry to one either. -/
theorem deadEnd {stop : Place} {n : Node} (hn : d.lookUp p = .ok (stop, n))
    (hflat : n.isDirectory = false) : Walk.DeadEnd d.top place name := by
  by_cases hlink : ∃ target, d.top.at? (place ++ [name]) = some (.symlink target)
  · obtain ⟨target, htarget⟩ := hlink
    obtain ⟨_, hresolve, hnode⟩ := lookUp_eq_ok_iff.mp hn
    obtain ⟨_, _, hwithin⟩ := bind_eq_ok_iff.mp hresolve
    obtain ⟨i, _, hall⟩ := Walk.within_eq_ok_iff.mp hwithin
    rw [h.segments_eq] at hall
    obtain ⟨mid, _, _, _, hfirst, hlast⟩ := hall.split
    obtain ⟨_, _, hleads⟩ := h.leads
    obtain rfl := hfirst.functional hleads
    obtain ⟨m, hm, ⟨hplain, _⟩ | ⟨other, j, rfl, hfurther⟩⟩ := hlast.cons_entry h.isName
    · obtain rfl := Option.some.inj (htarget.symm.trans hm)
      cases hplain
    · rw [List.append_nil] at hfurther
      apply Walk.deadEnd_of_link h.isName hm hfurther
      intro m hm
      obtain rfl := Option.some.inj (hnode.symm.trans hm)
      exact hflat
  · apply Walk.deadEnd_of_plain h.isName
    intro m hm
    have hplain : m.isSymlink = false := by
      cases m with
      | symlink target => exact absurd ⟨target, hm⟩ hlink
      | file mode data => rfl
      | directory mode entries => rfl
      | socket mode => rfl
    obtain ⟨_, rfl⟩ := Prod.mk.inj (Except.ok.inj ((h.lookUp hm hplain).symm.trans hn))
    exact ⟨hflat, hplain⟩

end Names

end Disk

end Marginalia
