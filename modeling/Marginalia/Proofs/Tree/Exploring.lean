import Marginalia.Proofs.Path.Below
import Marginalia.Proofs.Tree.Walking
/-!
What a path leads to on a disk, and what it leads to with the names of a place behind it: what
stands there, unless the path gets too long or a directory on the way may not be searched.
-/

namespace Marginalia

namespace Path

theorem mem_bytes_below {p : Path} {name : Name} (h : slash ∉ name) {b : UInt8}
    (hb : b ∈ (p.below name).bytes) : b ∈ p.bytes ∨ b = slash ∨ b ∈ name := by
  rw [below, join, isAbsolute_eq_false h, if_neg Bool.false_ne_true] at hb
  split at hb
  · rcases List.mem_append.mp hb with hp | hname
    · exact Or.inl hp
    · exact Or.inr (Or.inr hname)
  · rcases List.mem_append.mp hb with hp | hname
    · exact Or.inl hp
    · exact Or.inr (List.mem_cons.mp hname)

theorem zero_not_mem_pathBelow {p : Path} (hp : 0 ∉ p.bytes) {place : Place}
    (h : ∀ name ∈ place, EntryName name) : 0 ∉ (Disk.pathBelow p place).bytes := by
  induction place using List.reverseRecOn with
  | nil => exact hp
  | append_singleton place name ih =>
    have hname := h name (by simp)
    intro hzero
    rw [pathBelow_concat] at hzero
    rcases mem_bytes_below hname.slash_not_mem hzero with hbefore | hslash | hlast
    · exact ih (fun other ho => h other (List.mem_append_left _ ho)) hbefore
    · exact absurd hslash (by decide)
    · exact hname.zero_not_mem hlast

end Path

namespace Disk

theorem checkBytes_eq_ok_iff {p : Path} : checkBytes p = .ok () ↔ (0 : UInt8) ∉ p.bytes := by
  unfold checkBytes
  split
  · simp [*]
  · simp [*]

theorem checkLength_eq_ok_iff {p : Path} :
    Node.checkLength p = .ok () ↔ p.bytes ≠ [] ∧ p.bytes.length < Walk.pathLimit := by
  rw [Node.checkLength]
  by_cases hnil : p.bytes = []
  · simp [hnil]
  · by_cases hlong : p.bytes.length ≥ Walk.pathLimit
    · simp [hnil, hlong, Nat.not_lt.mpr hlong]
    · simp [hnil, hlong, Nat.not_le.mp hlong]

/-- Once it is resolved, only what stands there is left to look at. -/
theorem find_of_resolve {d : Disk} {p : Path} {place : Place}
    (h : d.top.resolve d.home p = .ok place) :
    d.find p =
      match d.top.at? place with
      | some n => .ok (place, n)
      | none => .error .noEntry := by
  rw [find, h]
  rfl

theorem find_eq_ok_iff {d : Disk} {p : Path} {place : Place} {n : Node} :
    d.find p = .ok (place, n) ↔ d.top.resolve d.home p = .ok place ∧ d.top.at? place = some n := by
  constructor
  · intro h
    obtain ⟨other, hresolve, h⟩ := bind_eq_ok_iff.mp h
    cases hnode : d.top.at? other with
    | none =>
      simp only [hnode] at h
      cases h
    | some m =>
      simp only [hnode] at h
      obtain ⟨rfl, rfl⟩ := Prod.mk.inj (Except.ok.inj h)
      exact ⟨hresolve, hnode⟩
  · intro h
    obtain ⟨hresolve, hnode⟩ := h
    rw [find_of_resolve hresolve, hnode]

theorem lookUp_of_checkBytes {d : Disk} {p : Path} (hbytes : checkBytes p = .ok ()) :
    d.lookUp p = (d.find p).mapError .system := by
  rw [lookUp, hbytes]
  rfl

theorem lookUp_eq_ok_iff {d : Disk} {p : Path} {place : Place} {n : Node} :
    d.lookUp p = .ok (place, n) ↔
      checkBytes p = .ok () ∧ d.top.resolve d.home p = .ok place ∧ d.top.at? place = some n := by
  rw [← find_eq_ok_iff]
  constructor
  · intro h
    obtain ⟨_, hbytes, h⟩ := bind_eq_ok_iff.mp h
    exact ⟨hbytes, mapError_eq_ok_iff.mp h⟩
  · intro h
    obtain ⟨hbytes, hfind⟩ := h
    rw [lookUp_of_checkBytes hbytes, hfind]
    rfl

theorem lookUp_ne_ok_of_find {d : Disk} {p : Path} {e : SystemError} (h : d.find p = .error e)
    (found : Place × Node) : d.lookUp p ≠ .ok found := by
  intro hfound
  have hfind := find_eq_ok_iff.mpr (lookUp_eq_ok_iff.mp hfound).2
  cases h.symm.trans hfind

theorem lookUp_eq_ok_iff_leads {d : Disk} {p : Path} {place : Place} {n : Node} :
    d.lookUp p = .ok (place, n) ↔
      checkBytes p = .ok () ∧ Node.checkLength p = .ok () ∧
      (∃ links ≤ Walk.linkLimit,
        Walk.Leads d.top links (Walk.origin p d.home) p.segments place) ∧
      d.top.at? place = some n := by
  rw [lookUp_eq_ok_iff, Node.resolve, bind_eq_ok_iff]
  constructor
  · intro h
    obtain ⟨hbytes, ⟨_, hlength, hwithin⟩, hnode⟩ := h
    exact ⟨hbytes, hlength, Walk.within_eq_ok_iff.mp hwithin, hnode⟩
  · intro h
    obtain ⟨hbytes, hlength, hleads, hnode⟩ := h
    exact ⟨hbytes, ⟨(), hlength, Walk.within_eq_ok_iff.mpr hleads⟩, hnode⟩

/-- Only a file is read, and only if its mode lets it. -/
theorem read_eq_ok_iff {n : Node} {bytes : Bytes} :
    read n = .ok bytes ↔ ∃ mode, n = .file mode bytes ∧ Mode.mayRead mode = true := by
  unfold read
  cases n with
  | file mode data => cases hmode : Mode.mayRead mode <;> simp [hmode]
  | directory mode entries => simp
  | symlink target => simp
  | socket mode => simp

theorem contents_eq_ok_iff {d : Disk} {p : Path} {bytes : Bytes} :
    d.contents p = .ok bytes ↔
      ∃ place mode, d.lookUp p = .ok (place, .file mode bytes) ∧ Mode.mayRead mode = true := by
  constructor
  · intro h
    obtain ⟨⟨place, n⟩, hlook, hn⟩ := bind_eq_ok_iff.mp h
    obtain ⟨mode, rfl, hmode⟩ := read_eq_ok_iff.mp (mapError_eq_ok_iff.mp hn)
    exact ⟨place, mode, hlook, hmode⟩
  · intro h
    obtain ⟨place, mode, hlook, hmode⟩ := h
    apply bind_eq_ok_iff.mpr
    exact ⟨_, hlook, mapError_eq_ok_iff.mpr (read_eq_ok_iff.mpr ⟨mode, rfl, hmode⟩)⟩

theorem lookUp_slash {d : Disk} (h : d.top.isDirectory = true) :
    d.lookUp ⟨[Path.slash]⟩ = .ok ([], d.top) := by
  have hresolve : d.top.resolve d.home ⟨[Path.slash]⟩ = .ok [] := by
    cases htop : d.top with
    | directory mode entries => rfl
    | file mode data => simp [htop, Node.isDirectory] at h
    | symlink target => simp [htop, Node.isDirectory] at h
    | socket mode => simp [htop, Node.isDirectory] at h
  exact lookUp_eq_ok_iff.mpr ⟨rfl, hresolve, rfl⟩

section Below

variable {d : Disk} {p : Path} {start : Place} {n : Node} (hp : d.lookUp p = .ok (start, n))
include hp

theorem ne_nil_of_lookUp : p.bytes ≠ [] := by
  intro hnil
  obtain ⟨_, hlength, _⟩ := lookUp_eq_ok_iff_leads.mp hp
  rw [Node.checkLength, if_pos hnil] at hlength
  cases hlength

/-- A path never leads to a link. -/
theorem isSymlink_of_lookUp : n.isSymlink = false := by
  obtain ⟨_, _, ⟨_, _, hleads⟩, hn⟩ := lookUp_eq_ok_iff_leads.mp hp
  obtain ⟨first, rest, hsegments⟩ := List.exists_cons_of_ne_nil p.segments_ne_nil
  rw [hsegments] at hleads
  obtain ⟨mode, entries, hdirectory, _⟩ := hleads.first_step
  obtain ⟨m, hm, hlink⟩ := hleads.stands ⟨_, hdirectory, rfl⟩
  rwa [Option.some.inj (hn.symm.trans hm)]

/-- Where a path leads anywhere, there is a root directory. -/
theorem isDirectory_top_of_lookUp : d.top.isDirectory = true := by
  obtain ⟨_, _, ⟨_, _, hleads⟩, _⟩ := lookUp_eq_ok_iff_leads.mp hp
  obtain ⟨first, rest, hsegments⟩ := List.exists_cons_of_ne_nil p.segments_ne_nil
  rw [hsegments] at hleads
  obtain ⟨mode, entries, hdirectory, _⟩ := hleads.first_step
  obtain ⟨m, es, htop⟩ := Node.eq_directory_of_at? hdirectory
  rw [htop]
  rfl

variable (hd : d.top.Sound)
include hd

theorem sound_of_lookUp : n.Sound := hd.at? (lookUp_eq_ok_iff.mp hp).2.2

/-- What stands below where a path leads is found by that path with the names of its place, and only
the length of that path and the directories on the way can be against it. -/
theorem find_below {place : Place} {k : Node} (hk : n.at? place = some k)
    (hlink : k.isSymlink = false) :
    d.find (pathBelow p place) =
      if (pathBelow p place).bytes.length ≥ Walk.pathLimit then .error .nameTooLong
      else if n.mayPass place then .ok (start ++ place, k)
      else .error .denied := by
  obtain ⟨_, _, ⟨links, hlinks, hleads⟩, hn⟩ := lookUp_eq_ok_iff_leads.mp hp
  have hpne := ne_nil_of_lookUp hp
  have hnames := (sound_of_lookUp hp hd).names_of_at? hk
  -- The names come after the segments of the path, but for an empty one after its last slash.
  obtain ⟨front, idle, hsegments, hidle, hplace⟩ := Path.exists_segments_pathBelow hpne hnames
  rw [hsegments] at hleads
  obtain ⟨mid, i, j, hsum, hfront, hrest⟩ := hleads.split
  obtain rfl : mid = start := by
    rcases hidle with rfl | rfl
    · cases hrest
      rfl
    · cases hrest.after_idle rfl
      rfl
  have hwalk : Walk.within d.top Walk.linkLimit (Walk.origin (pathBelow p place) d.home)
      (pathBelow p place).segments =
        if n.mayPass place then .ok (mid ++ place) else .error .denied := by
    obtain ⟨jump, hjump⟩ := Walk.exists_jump d.top (Walk.linkLimit - i)
    rw [hplace, Walk.origin, Path.isAbsolute_pathBelow hpne hnames, ← Walk.origin,
      hfront.within_append (by omega) place, hjump]
    exact Walk.along_place hd jump hn hk hlink
  have hat : d.top.at? (mid ++ place) = some k := by
    rw [Node.at?_append, hn]
    exact hk
  rw [find, Node.resolve, Node.checkLength, if_neg (Path.pathBelow_ne_nil hpne place)]
  split
  · rfl
  · simp only [bind, Except.bind, hwalk]
    cases n.mayPass place with
    | false => rfl
    | true =>
      simp only [if_true, hat]
      rfl

theorem lookUp_below {place : Place} {k : Node} (hk : n.at? place = some k)
    (hlink : k.isSymlink = false) :
    d.lookUp (pathBelow p place) =
      if (pathBelow p place).bytes.length ≥ Walk.pathLimit then .error (.system .nameTooLong)
      else if n.mayPass place then .ok (start ++ place, k)
      else .error (.system .denied) := by
  obtain ⟨hbytes, _⟩ := lookUp_eq_ok_iff.mp hp
  have hnames := (sound_of_lookUp hp hd).names_of_at? hk
  have hbelow : checkBytes (pathBelow p place) = .ok () :=
    checkBytes_eq_ok_iff.mpr
      (Path.zero_not_mem_pathBelow (checkBytes_eq_ok_iff.mp hbytes) hnames)
  rw [lookUp_of_checkBytes hbelow, find_below hp hd hk hlink]
  split
  · rfl
  · split
    · rfl
    · rfl

end Below

end Disk

end Marginalia
