import Marginalia.Proofs.Tree.Slots
/-!
What becomes of a tree when a file is saved or made in it: either nothing at all, or one entry is
set, the one that the path names.
-/

namespace Marginalia

namespace Disk

/-- One entry is set to a node, the one that a path names, and nothing else is changed: at every
other place the same kind of node stands before and after, with the same mode, contents or target,
or nothing does. -/
structure Sets (before : Disk) (p : Path) (place : Place) (name : Name) (n : Node) (after : Disk) :
    Prop where
  names : before.Names p place name
  home_eq : after.home = before.home
  stands : after.top.at? (place ++ [name]) = some n
  elsewhere : ∀ other, other ≠ place ++ [name] →
    (after.top.at? other).map Node.own = (before.top.at? other).map Node.own

theorem Names.sets_put {d : Disk} {p : Path} {place : Place} {name : Name}
    (h : d.Names p place name)
    (hflat : ∀ m, d.top.at? (place ++ [name]) = some m → m.isDirectory = false) {n : Node}
    (hn : n.isDirectory = false) : Sets d p place name n (d.put place name n) := by
  obtain ⟨mode, entries, hdirectory, _⟩ := h.directory
  have hput : (d.put place name n).top.at? (place ++ [name]) = some n :=
    Node.at?_put hdirectory name n
  refine ⟨h, rfl, hput, ?_⟩
  intro other hother
  by_cases hbelow : place ++ [name] <+: other
  · obtain ⟨rest, rfl⟩ := hbelow
    have hrest : rest ≠ [] := by
      intro hnil
      rw [hnil, List.append_nil] at hother
      exact hother rfl
    rw [Node.at?_below_eq_none hflat hrest, Node.at?_below_eq_none _ hrest]
    intro m hm
    obtain rfl := Option.some.inj (hput.symm.trans hm)
    exact hn
  · exact Node.sameBut_put d.top place name n other hbelow

namespace Sets

variable {before after : Disk} {p : Path} {place : Place} {name : Name} {n : Node}
  (h : Sets before p place name n after)
include h

theorem sameBut : Node.SameBut (place ++ [name]) before.top after.top := by
  intro other hother
  have hne : other ≠ place ++ [name] := by
    intro he
    rw [he] at hother
    exact hother List.prefix_rfl
  exact (h.elsewhere other hne).symm

/-- The path names that entry as before. -/
theorem names_after (hdead : Walk.DeadEnd before.top place name) : after.Names p place name :=
  ⟨h.names.bytes, h.home_eq ▸ Node.slot_sameBut h.sameBut hdead h.names.slot, h.names.proper⟩

theorem lookUp (hdead : Walk.DeadEnd before.top place name) (hlink : n.isSymlink = false) :
    after.lookUp p = .ok (place ++ [name], n) :=
  (h.names_after hdead).lookUp h.stands hlink

end Sets

theorem withNew_eq_ok {d made : Disk} {p : Path} (hbytes : 0 ∉ p.bytes)
    (h : d.withNew p = .ok made) :
    ∃ place name, d.Names p place name ∧ d.top.at? (place ++ [name]) = none ∧
      made = d.put place name (.file newMode []) := by
  obtain ⟨s, hslot, hs⟩ := bind_eq_ok_iff.mp h
  cases hmark : s.isMark with
  | true => simp [hmark] at hs
  | false =>
    cases hslashed : s.slashed with
    | true => simp [hmark, hslashed] at hs
    | false =>
      simp only [hmark, hslashed] at hs
      obtain ⟨old, hold, hplace⟩ := bind_eq_ok_iff.mp hs
      cases old with
      | some n => cases hplace
      | none =>
        obtain ⟨place, hwritable, hmade⟩ := bind_eq_ok_iff.mp hplace
        obtain ⟨rfl, _⟩ := Node.writablePlace_eq_ok_iff.mp hwritable
        obtain ⟨mode, entries, hnode, _, hlength, hfree⟩ := Node.occupant_eq_ok_iff.mp hold
        refine ⟨s.directory, s.name, names_of_slot hbytes hslot hmark hslashed hlength, ?_,
          (Except.ok.inj hmade).symm⟩
        rw [Node.at?_concat_of_directory hnode, hfree]

/-- A new file is made in an entry where nothing was, or nothing becomes of the tree. -/
theorem create_cases (d : Disk) (p : Path) :
    (∃ e, d.create p = (.error e, d)) ∨
    ∃ place name, d.Names p place name ∧ d.top.at? (place ++ [name]) = none ∧
      d.create p = (.ok (), d.put place name (.file newMode [])) := by
  cases hbytes : checkBytes p with
  | error e =>
    left
    exact ⟨e, by rw [create, hbytes]⟩
  | ok _ =>
    cases hmade : d.withNew p with
    | error e =>
      left
      exact ⟨.system e, by rw [create, hbytes, hmade]⟩
    | ok made =>
      right
      obtain ⟨place, name, hnames, hfree, rfl⟩ :=
        withNew_eq_ok (checkBytes_eq_ok_iff.mp hbytes) hmade
      exact ⟨place, name, hnames, hfree, by rw [create, hbytes, hmade]⟩

/-- Where something stands, nothing is made. -/
theorem Names.create_eq_alreadyThere {d : Disk} {p : Path} {place : Place} {name : Name}
    (h : d.Names p place name) {n : Node} (hn : d.top.at? (place ++ [name]) = some n) :
    d.create p = (.error (.system .alreadyThere), d) := by
  have hnew : d.withNew p = .error .alreadyThere := by
    rw [withNew, h.slot]
    simp only [bind, Except.bind, h.isMark_eq_false, h.occupant_eq, hn]
    rfl
  rw [create, checkBytes_eq_ok_iff.mpr h.bytes, hnew]

section Scratch

variable {entries : List (Name × Node)}

theorem length_le_of_lookup {name : Name} {n : Node} (h : entries.lookup name = some n) :
    name.length ≤ (entries.flatMap (·.1)).length := by
  have hmem := mem_of_lookup h
  obtain ⟨before, after, rfl⟩ := List.append_of_mem hmem
  simp only [List.flatMap_append, List.flatMap_cons, List.length_append]
  omega

theorem lookup_freshName (entries : List (Name × Node)) :
    entries.lookup (freshName entries) = none := by
  unfold freshName
  split
  · rename_i hfree
    exact Option.isNone_iff_eq_none.mp hfree
  · cases hl : entries.lookup
      (scratchStem ++ List.replicate (entries.flatMap (·.1)).length 0x58) with
    | none => rfl
    | some n =>
      have hlong := length_le_of_lookup hl
      have hstem : scratchStem.length = 10 := by decide
      rw [List.length_append, List.length_replicate] at hlong
      omega

theorem isName_freshName (entries : List (Name × Node)) : Walk.IsName (freshName entries) := by
  have hlong : 10 ≤ (freshName entries).length := by
    have hstem : scratchStem.length = 10 := by decide
    unfold freshName
    split
    · omega
    · rw [List.length_append]
      omega
  refine ⟨?_, ?_, ?_⟩
  all_goals
    intro he
    rw [he] at hlong
    exact absurd hlong (by decide)

end Scratch

/-- A scratch file goes into a directory where nothing has its name. -/
theorem scratchSlot_eq_ok {d : Disk} {directory : Path} {place : Place} {name : Name}
    (h : d.scratchSlot directory = .ok (place, name)) :
    Walk.IsName name ∧ ∃ mode entries, d.top.at? place = some (.directory mode entries) ∧
      entries.lookup name = none := by
  obtain ⟨_, _, h⟩ := bind_eq_ok_iff.mp h
  obtain ⟨s, _, h⟩ := bind_eq_ok_iff.mp h
  obtain ⟨_, _, h⟩ := bind_eq_ok_iff.mp h
  obtain ⟨other, hplace, h⟩ := bind_eq_ok_iff.mp h
  obtain ⟨⟨mode, entries⟩, hlisting, h⟩ := bind_eq_ok_iff.mp h
  obtain ⟨rfl, rfl⟩ := Prod.mk.inj (Except.ok.inj h)
  obtain ⟨rfl, _⟩ := Node.writablePlace_eq_ok_iff.mp (mapError_eq_ok_iff.mp hplace)
  have hnode := Node.listing_eq_ok_iff.mp (mapError_eq_ok_iff.mp hlisting)
  exact ⟨isName_freshName entries, mode, entries, hnode, lookup_freshName entries⟩

theorem rename_eq_ok {d after : Disk} {place : Place} {name : Name} {p : Path}
    (h : d.rename place name p = .ok after) :
    ∃ target key n, d.Names p target key ∧
      (∀ m, d.top.at? (target ++ [key]) = some m → m.isDirectory = false) ∧
      d.top.at? (place ++ [name]) = some n ∧ after = (d.drop place name).put target key n := by
  unfold rename at h
  by_cases hzero : (0 : UInt8) ∈ p.bytes
  · simp [hzero] at h
  · rw [if_neg hzero] at h
    obtain ⟨s, hslot, h⟩ := bind_eq_ok_iff.mp h
    cases hmark : s.isMark with
    | true => simp [hmark] at h
    | false =>
      simp only [hmark] at h
      obtain ⟨old, hold, h⟩ := bind_eq_ok_iff.mp h
      cases hslashed : s.slashed with
      | true => simp [hslashed] at h
      | false =>
        simp only [hslashed] at h
        obtain ⟨target, htarget, h⟩ := bind_eq_ok_iff.mp h
        obtain ⟨rfl, _⟩ := Node.writablePlace_eq_ok_iff.mp htarget
        obtain ⟨mode, entries, hnode, _, hlength, hlookup⟩ := Node.occupant_eq_ok_iff.mp hold
        split at h
        · cases h
        · rename_i hflat
          split at h
          · rename_i n hn
            refine ⟨s.directory, s.name, n, names_of_slot hzero hslot hmark hslashed hlength, ?_,
              hn, (Except.ok.inj h).symm⟩
            intro m hm
            rw [Node.at?_concat_of_directory hnode, hlookup] at hm
            simpa [hm] using hflat
          · cases h

/-- What is put under a free name hides no directory. -/
theorem flat_of_put {n child : Node} {place other : Place} {name : Name}
    (hfree : n.at? (place ++ [name]) = none)
    (hflat : ∀ m, (n.put place name child).at? other = some m → m.isDirectory = false) :
    ∀ m, n.at? other = some m → m.isDirectory = false := by
  intro m hm
  by_cases hbelow : place ++ [name] <+: other
  · obtain ⟨rest, rfl⟩ := hbelow
    rw [Node.at?_append, hfree] at hm
    cases hm
  · have hsame := Node.sameBut_put n place name child other hbelow
    rw [hm, Option.map_some, Option.map_eq_some_iff] at hsame
    obtain ⟨k, hk, hown⟩ := hsame
    rw [← Node.isDirectory_own, ← hown, Node.isDirectory_own]
    exact hflat k hk

/-- A file is saved in the entry that its path names, or nothing becomes of the tree. No scratch
file is left in either case. -/
theorem save_cases {d : Disk} (hd : d.top.Sound) (p : Path) (data : Bytes) :
    (∃ e, d.save p data = (.error e, d)) ∨
    ∃ place name, d.Names p place name ∧
      (∀ m, d.top.at? (place ++ [name]) = some m → m.isDirectory = false) ∧
      d.save p data = (.ok (), d.put place name (.file (d.savedMode p) data)) := by
  cases hscratch : d.scratchSlot p.directory with
  | error e =>
    left
    exact ⟨_, by rw [save, hscratch]⟩
  | ok found =>
    obtain ⟨place, name⟩ := found
    obtain ⟨hname, mode, entries, hnode, hfree⟩ := scratchSlot_eq_ok hscratch
    let written := d.put place name (.file (d.savedMode p) data)
    have hback : written.drop place name = d := by
      simp only [written, put, drop, Node.drop_put hnode hd hfree]
    cases hmoved : written.rename place name p with
    | error e =>
      left
      refine ⟨.system e, ?_⟩
      rw [save, hscratch]
      simp only [hmoved, written] at hback ⊢
      rw [hback]
    | ok saved =>
      right
      obtain ⟨target, key, n, hnames, hflat, hn, rfl⟩ := rename_eq_ok hmoved
      have hfile : written.top.at? (place ++ [name]) = some (.file (d.savedMode p) data) :=
        Node.at?_put hnode name _
      obtain rfl := Option.some.inj (hn.symm.trans hfile)
      -- The scratch file is no directory, so it was in nobody's way to the entry.
      have hdead : Walk.DeadEnd written.top place name := by
        apply Walk.deadEnd_of_plain hname
        intro m hm
        obtain rfl := Option.some.inj (hfile.symm.trans hm)
        exact ⟨rfl, rfl⟩
      have hslot := Node.slot_sameBut (Node.sameBut_put d.top place name _) hdead hnames.slot
      have habsent : d.top.at? (place ++ [name]) = none := by
        rw [Node.at?_concat_of_directory hnode, hfree]
      refine ⟨target, key, ⟨hnames.bytes, hslot, hnames.proper⟩, flat_of_put habsent hflat, ?_⟩
      rw [save, hscratch]
      simp only [hmoved, written] at hback ⊢
      rw [hback]

/-- What is saved over a file that can be read is read again by the same path. -/
theorem Names.contents_put {d : Disk} {p : Path} {place : Place} {name : Name}
    (h : d.Names p place name)
    (hflat : ∀ m, d.top.at? (place ++ [name]) = some m → m.isDirectory = false) {bytes : Bytes}
    (hbytes : d.contents p = .ok bytes) (data : Bytes) :
    (d.put place name (.file (d.savedMode p) data)).contents p = .ok data := by
  obtain ⟨_, mode, hlook, hmode⟩ := contents_eq_ok_iff.mp hbytes
  have hsaved : d.savedMode p = mode := by
    rw [savedMode, hlook]
    rfl
  have hsets := h.sets_put hflat (rfl : (Node.file (d.savedMode p) data).isDirectory = false)
  have hafter := hsets.lookUp (h.deadEnd hlook rfl) rfl
  rw [hsaved] at hafter ⊢
  exact contents_eq_ok_iff.mpr ⟨_, mode, hafter, hmode⟩

end Disk

end Marginalia
