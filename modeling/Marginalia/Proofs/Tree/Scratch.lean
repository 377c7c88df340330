import Marginalia.Proofs.Path.Beside
import Marginalia.Proofs.Tree.Saving
/-!
Scratch files. One is made for a path just where the entry is that the path names, although its own
path is another one; from there it can be moved into that entry.
-/

namespace Marginalia

namespace Walk

/-- A walk that ends in an idle segment was where it leads before that. -/
theorem Leads.of_idle {top : Node} {links : Nat} {start stop : Place} {segments : List Bytes}
    {segment : Bytes} (hidle : Path.isIdle segment = true)
    (h : Leads top links start (segments ++ [segment]) stop) :
    Leads top links start segments stop := by
  have hnamed : ∀ mode s, mark? mode s segment ≠ none := by
    intro mode s hnone
    rcases mark?_of_isIdle hidle mode s with hmark | hmark
    · cases hnone.symm.trans hmark
    · cases hnone.symm.trans hmark
  generalize hall : segments ++ [segment] = all at h
  induction h generalizing segments with
  | done start => simp at hall
  | mark here marked further ih =>
    cases segments with
    | nil =>
      obtain ⟨rfl, rfl⟩ := List.cons.inj hall
      cases further
      rcases mark?_of_isIdle hidle _ _ with hmark | hmark
      · obtain rfl := Except.ok.inj (Option.some.inj (hmark.symm.trans marked))
        exact .done _
      · cases hmark.symm.trans marked
    | cons first rest =>
      obtain ⟨rfl, rfl⟩ := List.cons.inj hall
      exact .mark here marked (ih rfl)
  | name here unmarked found unlinked further ih =>
    cases segments with
    | nil =>
      obtain ⟨rfl, rfl⟩ := List.cons.inj hall
      exact absurd unmarked (hnamed _ _)
    | cons first rest =>
      obtain ⟨rfl, rfl⟩ := List.cons.inj hall
      exact .name here unmarked found unlinked (ih rfl)
  | link here unmarked found further ih =>
    cases segments with
    | nil =>
      obtain ⟨rfl, rfl⟩ := List.cons.inj hall
      exact absurd unmarked (hnamed _ _)
    | cons first rest =>
      obtain ⟨rfl, rfl⟩ := List.cons.inj hall
      exact .link here unmarked found (ih (List.append_assoc ..))

/-- An empty segment leads nowhere. -/
theorem exists_leads_nil_cons_iff {top : Node} {start stop : Place} {mode : Nat}
    {entries : List (Name × Node)} (here : top.at? start = some (.directory mode entries))
    {limit : Nat} {rest : List Bytes} :
    (∃ links ≤ limit, Leads top links start ([] :: rest) stop) ↔
      ∃ links ≤ limit, Leads top links start rest stop := by
  constructor
  · intro h
    obtain ⟨links, hlinks, hleads⟩ := h
    exact ⟨links, hlinks, hleads.after_idle rfl⟩
  · intro h
    obtain ⟨links, hlinks, hleads⟩ := h
    exact ⟨links, hlinks, .mark here rfl hleads⟩

/-- Tidied segments lead to a directory just as the others do, if it may be searched. -/
theorem Leads.tidied {top : Node} {links : Nat} {start stop : Place} {segments kept : List Bytes}
    (h : Leads top links start segments stop) (htidied : Path.Tidied segments kept) {mode : Nat}
    {entries : List (Name × Node)} (hstop : top.at? stop = some (.directory mode entries))
    (hsearch : Mode.maySearch mode = true) : Leads top links start kept stop := by
  cases htidied with
  | here =>
    cases h
    exact .mark hstop (by simp [mark?, hsearch, Path.current]) (.done _)
  | @trimmed _ idle hkept hidle =>
    induction idle using List.reverseRecOn with
    | nil => rwa [List.append_nil] at h
    | append_singleton idle segment ih =>
      rw [← List.append_assoc] at h
      have hlast := hidle segment (by simp)
      exact ih (fun s hs => hidle s (List.mem_append_left _ hs)) (h.of_idle hlast)

end Walk

namespace Disk

theorem entryName_scratchStem : Path.EntryName scratchStem := by decide

namespace Names

variable {d : Disk} {p : Path} {place : Place} {name : Name} (h : d.Names p place name)
include h

theorem checkBytes_directory : checkBytes p.directory = .ok () := by
  apply checkBytes_eq_ok_iff.mpr
  intro hzero
  rcases Path.mem_directory h.segments_eq h.proper hzero with hmem | he | hdot
  · exact h.bytes hmem
  · cases he
  · cases List.mem_singleton.mp hdot

/-- Another name in the directory of a path's entry stands behind the same segments, tidied. -/
theorem exists_segments_beside {stem : Name} (hstem : Path.EntryName stem) :
    ∃ kept, Path.Tidied p.named.dropLast kept ∧
      (p.directory.join ⟨stem⟩).segments = kept ++ [stem] ∧
      (p.directory.join ⟨stem⟩).isAbsolute = p.isAbsolute := by
  obtain ⟨kept, htidied, hjoin⟩ :=
    Path.directory_join h.segments_eq h.proper hstem.slash_not_mem
  have hsegments : (p.directory.join ⟨stem⟩).segments = kept ++ [stem] := by
    rw [hjoin]
    apply Path.segments_slashed _ hstem.slash_not_mem
    intro segment hsegment
    rcases htidied.mem hsegment with hmem | rfl
    · apply Cut.not_mem_of_mem_splitOn (l := p.bytes)
      exact p.named_prefix.subset ((List.dropLast_prefix _).subset hmem)
    · decide
  refine ⟨kept, htidied, hsegments, ?_⟩
  rw [Path.isAbsolute_of_segments hsegments, Path.isAbsolute_of_segments h.segments_eq,
    Bool.eq_iff_iff, beq_iff_eq, beq_iff_eq, htidied.head?_eq_nil_iff]

variable (hd : d.top.Sound)
include hd

/-- The way to a scratch file goes from the root, and to the directory of the path's entry. -/
theorem exists_way :
    ∃ way, (d.scratchPath p.directory).segments = way ++ [scratchStem] ∧
      (d.scratchPath p.directory).isAbsolute = true ∧
      ∀ stop, (∃ links ≤ Walk.linkLimit, Walk.Leads d.top links [] way stop) ↔
        (p.isAbsolute = false → d.top.mayPass d.home = true) ∧ stop = place := by
  obtain ⟨mode, entries, hdirectory, hsearch⟩ := h.directory
  obtain ⟨links, hlinks, hleads⟩ := h.leads
  obtain ⟨kept, htidied, hsegments, habsolute⟩ := h.exists_segments_beside entryName_scratchStem
  have hhome := hleads.stands_of_relative ⟨_, hdirectory, rfl⟩
  have hkept := hleads.tidied htidied hdirectory hsearch
  rw [Walk.origin] at hkept
  rw [scratchPath]
  cases hp : p.isAbsolute with
  | true =>
    rw [hp] at habsolute
    rw [hp, if_pos rfl] at hkept
    have hjoin : (pathOf d.home).join (p.directory.join ⟨scratchStem⟩) =
        p.directory.join ⟨scratchStem⟩ := by
      rw [Path.join, if_pos habsolute]
    rw [hjoin]
    refine ⟨kept, hsegments, habsolute, ?_⟩
    intro stop
    rw [hkept.exists_leads_iff hlinks]
    simp
  | false =>
    rw [hp] at habsolute
    rw [hp, if_neg Bool.false_ne_true] at hkept
    obtain ⟨m, hm, _⟩ := hhome hp
    obtain ⟨rootMode, rootEntries, htop⟩ := Node.eq_directory_of_at? hdirectory
    have hroot : d.top.at? [] = some (.directory rootMode rootEntries) := congrArg some htop
    have hjoin := Path.segments_join_pathOf (hd.names_of_at? hm) habsolute
    rw [hsegments, ← List.append_assoc, ← List.cons_append] at hjoin
    refine ⟨_, hjoin, by rw [Path.isAbsolute_of_segments hjoin]; rfl, ?_⟩
    intro stop
    rw [Walk.exists_leads_nil_cons_iff hroot, Walk.leads_place_append_iff hd (hhome hp),
      hkept.exists_leads_iff hlinks]
    simp

theorem slot_scratchPath_iff {s : Slot} :
    d.top.slot d.home (d.scratchPath p.directory) = .ok s ↔
      (d.scratchPath p.directory).bytes.length < Walk.pathLimit ∧
      (p.isAbsolute = false → d.top.mayPass d.home = true) ∧ s = ⟨place, scratchStem, false⟩ := by
  obtain ⟨way, hsegments, habsolute, hway⟩ := h.exists_way hd
  obtain ⟨mode, entries, hdirectory, hsearch⟩ := h.directory
  have hne : (d.scratchPath p.directory).bytes ≠ [] :=
    Path.join_ne_nil (Path.pathBelow_ne_nil (List.cons_ne_nil _ _) d.home) _
  have hnamed : (d.scratchPath p.directory).named = way ++ [scratchStem] := by
    rw [Path.named, hsegments]
    simp [entryName_scratchStem.ne_nil]
  rw [Node.slot_eq_ok_iff, checkLength_eq_ok_iff, hnamed, hsegments, List.dropLast_concat,
    Walk.origin, habsolute, if_pos rfl, Walk.within_eq_ok_iff, hway]
  constructor
  · intro hs
    obtain ⟨⟨_, hshort⟩, ⟨hpass, hplace⟩, _, hname, hslashed⟩ := hs
    obtain ⟨directory, name, slashed⟩ := s
    obtain rfl : directory = place := hplace
    refine ⟨hshort, hpass, ?_⟩
    simpa using And.intro hname hslashed
  · intro hs
    obtain ⟨hshort, hpass, rfl⟩ := hs
    exact ⟨⟨hne, hshort⟩, ⟨hpass, rfl⟩, ⟨mode, entries, hdirectory, hsearch⟩, by simp, by simp⟩

/-- A scratch file can be made for a path just if the directory lets new entries be made and can be
got to from the root, and then it is made there. -/
theorem scratchSlot_eq_ok_iff {found : Place × Name} :
    d.scratchSlot p.directory = .ok found ↔
      (d.scratchPath p.directory).bytes.length < Walk.pathLimit ∧
      (p.isAbsolute = false → d.top.mayPass d.home = true) ∧
      ∃ mode entries, d.top.at? place = some (.directory mode entries) ∧
        Mode.mayWrite mode = true ∧ found = (place, freshName entries) := by
  obtain ⟨mode, entries, hdirectory, hsearch⟩ := h.directory
  constructor
  · intro hfound
    obtain ⟨_, _, hfound⟩ := bind_eq_ok_iff.mp hfound
    obtain ⟨s, hs, hfound⟩ := bind_eq_ok_iff.mp hfound
    obtain ⟨_, _, hfound⟩ := bind_eq_ok_iff.mp hfound
    obtain ⟨other, hplace, hfound⟩ := bind_eq_ok_iff.mp hfound
    obtain ⟨⟨m, es⟩, hlisting, hfound⟩ := bind_eq_ok_iff.mp hfound
    obtain ⟨hshort, hpass, rfl⟩ := (h.slot_scratchPath_iff hd).mp (mapError_eq_ok_iff.mp hs)
    obtain ⟨rfl, m', es', hat, hwrite, _⟩ :=
      Node.writablePlace_eq_ok_iff.mp (mapError_eq_ok_iff.mp hplace)
    have hnode := Node.listing_eq_ok_iff.mp (mapError_eq_ok_iff.mp hlisting)
    obtain ⟨rfl, rfl⟩ := Node.directory.inj (Option.some.inj (hat.symm.trans hnode))
    exact ⟨hshort, hpass, m', es', hat, hwrite, (Except.ok.inj hfound).symm⟩
  · intro hfound
    obtain ⟨hshort, hpass, m, es, hat, hwrite, rfl⟩ := hfound
    obtain ⟨rfl, rfl⟩ := Node.directory.inj (Option.some.inj (hdirectory.symm.trans hat))
    have hslot := (h.slot_scratchPath_iff hd).mpr ⟨hshort, hpass, rfl⟩
    have hoccupant : d.top.occupant ⟨place, scratchStem, false⟩ =
        .ok (entries.lookup scratchStem) :=
      Node.occupant_eq_ok_iff.mpr
        ⟨mode, entries, hdirectory, hsearch, entryName_scratchStem.length_le, rfl⟩
    have hwritable : d.top.writablePlace ⟨place, scratchStem, false⟩ = .ok place :=
      Node.writablePlace_eq_ok_iff.mpr ⟨rfl, mode, entries, hdirectory, hwrite, hsearch⟩
    have hlisting : d.top.listing place = .ok (mode, entries) :=
      Node.listing_eq_ok_iff.mpr hdirectory
    rw [scratchSlot, h.checkBytes_directory, hslot]
    simp only [Except.mapError, bind, Except.bind, hoccupant, hwritable, hlisting]
    rfl

omit hd in
/-- A file is moved into the entry that a path names, if no directory is there. -/
theorem rename_eq {n : Node} (hwritable : ∃ mode entries,
      d.top.at? place = some (.directory mode entries) ∧ Mode.mayWrite mode = true)
    (hflat : ∀ m, d.top.at? (place ++ [name]) = some m → m.isDirectory = false) {source : Place}
    {key : Name} (hn : d.top.at? (source ++ [key]) = some n) :
    d.rename source key p = .ok ((d.drop source key).put place name n) := by
  obtain ⟨mode, entries, hdirectory, hwrite⟩ := hwritable
  obtain ⟨m, es, hat, hsearch⟩ := h.directory
  obtain ⟨rfl, rfl⟩ := Node.directory.inj (Option.some.inj (hdirectory.symm.trans hat))
  have hplace : d.top.writablePlace ⟨place, name, false⟩ = .ok place :=
    Node.writablePlace_eq_ok_iff.mpr ⟨rfl, mode, entries, hdirectory, hwrite, hsearch⟩
  have hover : ((d.top.at? (place ++ [name])).map Node.isDirectory).getD false = false := by
    cases hat : d.top.at? (place ++ [name]) with
    | none => rfl
    | some m => exact hflat m hat
  rw [rename, if_neg h.bytes, h.slot]
  simp only [bind, Except.bind, h.isMark_eq_false, h.occupant_eq, hplace, hover, hn]
  rfl

end Names

end Disk

end Marginalia
