import Marginalia.Proofs.Program.OnDisk
import Marginalia.Proofs.Tree.Scratch
/-!
Saving a source: when it can be done, and that it is done wholly or not at all.
-/

namespace Marginalia

namespace Disk

/-- What it takes to put a file in the place of the entry that a path names: the directory lets new
entries be made, there is no directory under the name, and the scratch file can be made by its
absolute path: that one is not too long, and it gets past the directories above the working one. -/
structure Replaceable (d : Disk) (p : Path) (place : Place) (name : Name) : Prop where
  names : d.Names p place name
  writable : ∃ mode entries, d.top.at? place = some (.directory mode entries) ∧
    Mode.mayWrite mode = true
  flat : ∀ n, d.top.at? (place ++ [name]) = some n → n.isDirectory = false
  short : (d.scratchPath p.directory).bytes.length < Walk.pathLimit
  reached : p.isAbsolute = false → d.top.mayPass d.home = true

section Fresh

variable {d : Disk} {place : Place} {mode : Nat} {entries : List (Name × Node)}
  (hdirectory : d.top.at? place = some (.directory mode entries)) (n : Node)
include hdirectory

/-- A scratch file stands in nobody's way, so a path names the same entry as before. -/
theorem Names.put_freshName {p : Path} {name : Name} (h : d.Names p place name) :
    (d.put place (freshName entries) n).Names p place name := by
  have habsent : d.top.at? (place ++ [freshName entries]) = none := by
    rw [Node.at?_concat_of_directory hdirectory, lookup_freshName]
  have hdead : Walk.DeadEnd d.top place (freshName entries) := by
    apply Walk.deadEnd_of_plain (isName_freshName entries)
    intro m hm
    rw [habsent] at hm
    cases hm
  have hsame := (Node.sameBut_put d.top place (freshName entries) n).symm
  exact ⟨h.bytes, Node.slot_sameBut hsame hdead h.slot, h.proper⟩

theorem at?_put_directory (name : Name) :
    (d.put place name n).top.at? place = some (.directory mode (Node.putEntry name n entries)) := by
  have hat := Node.at?_modifyAt_append (Node.mapEntries (Node.putEntry name n)) d.top place []
  rwa [List.append_nil, hdirectory] at hat

theorem flat_put {name other : Name} (hn : n.isDirectory = false)
    (hflat : ∀ m, d.top.at? (place ++ [other]) = some m → m.isDirectory = false) :
    ∀ m, (d.put place name n).top.at? (place ++ [other]) = some m → m.isDirectory = false := by
  intro m hm
  have hafter := at?_put_directory hdirectory n name
  rw [Node.at?_concat_of_directory hafter, Node.lookup_putEntry] at hm
  split at hm
  · rwa [← Option.some.inj hm]
  · rw [← Node.at?_concat_of_directory hdirectory] at hm
    exact hflat m hm

end Fresh

/-- What can be replaced is replaced: the scratch file is made and moved there. -/
theorem Replaceable.save_eq_ok {d : Disk} (hd : d.top.Sound) {p : Path} {place : Place}
    {name : Name} (h : d.Replaceable p place name) (data : Bytes) : (d.save p data).1 = .ok () := by
  obtain ⟨hnames, ⟨mode, entries, hdirectory, hwrite⟩, hflat, hshort, hpass⟩ := h
  let file := Node.file (d.savedMode p) data
  let written := d.put place (freshName entries) file
  have hscratch : d.scratchSlot p.directory = .ok (place, freshName entries) :=
    (hnames.scratchSlot_eq_ok_iff hd).mpr ⟨hshort, hpass, mode, entries, hdirectory, hwrite, rfl⟩
  have hplace := at?_put_directory hdirectory file (freshName entries)
  have hfile : written.top.at? (place ++ [freshName entries]) = some file :=
    Node.at?_put hdirectory _ file
  have hmoved := (hnames.put_freshName hdirectory file).rename_eq ⟨mode, _, hplace, hwrite⟩
    (flat_put hdirectory file rfl hflat) hfile
  rw [save, hscratch]
  simp only [file] at hmoved
  simp only [hmoved]

/-- A source is saved just if the entry that its path names can be replaced. -/
theorem save_eq_ok_iff {d : Disk} (hd : d.top.Sound) {p : Path} {data : Bytes} :
    (d.save p data).1 = .ok () ↔ ∃ place name, d.Replaceable p place name := by
  constructor
  · intro hok
    rcases save_cases hd p data with ⟨e, hsave⟩ | ⟨place, name, hnames, hflat, _⟩
    · rw [hsave] at hok
      cases hok
    · cases hscratch : d.scratchSlot p.directory with
      | error e =>
        rw [save, hscratch] at hok
        cases hok
      | ok found =>
        obtain ⟨hshort, hpass, mode, entries, hdirectory, hwrite, _⟩ :=
          (hnames.scratchSlot_eq_ok_iff hd).mp hscratch
        exact ⟨place, name, hnames, ⟨mode, entries, hdirectory, hwrite⟩, hflat, hshort, hpass⟩
  · intro h
    obtain ⟨place, name, hreplaceable⟩ := h
    exact hreplaceable.save_eq_ok hd data

/-- What is known of the mode before a save is that of the node which the path leads to. -/
theorem mode?_of_lookUp {d : Disk} {p : Path} {place : Place} {n : Node}
    (h : d.lookUp p = .ok (place, n)) : n.mode? = some (d.savedMode p) := by
  have hplain := isSymlink_of_lookUp h
  rw [savedMode, h]
  cases n with
  | symlink target => cases hplain
  | file mode data => rfl
  | directory mode entries => rfl
  | socket mode => rfl

/-- A source is saved wholly or not at all. It is saved just if the entry that its path names can be
replaced; then that entry is a file with the text of the source and the mode of whatever the path
led to before, and nothing else is changed, least of all what a link under that name led to. If it
is not saved, the tree is as it was; and so it is when a scratch file has to be given up, with
whatever is written to it by then. -/
theorem saveSource_all_or_nothing {d : Disk} (hd : d.top.Sound) (p : Path) (s : SourceText) :
    let answer := (d.ask (Disk.files.saveSource p s)).1
    let left := (d.ask (Disk.files.saveSource p s)).2
    (answer = .ok () ↔ ∃ place name, d.Replaceable p place name) ∧
    (answer = .ok () → ∃ place name mode,
      Sets d p place name (.file mode (Utf8.encode s.render)) left ∧
      (∀ other n, d.lookUp p = .ok (other, n) → n.mode? = some mode ∧
        (other ≠ place ++ [name] → (left.top.at? other).map Node.own = some n.own)) ∧
      ((∀ found, d.lookUp p ≠ .ok found) → mode = 0o600)) ∧
    (∀ e, answer = .error e → (∃ fault, e = .file .saving p fault) ∧ left = d) ∧
    ∀ place key mode data, d.scratchSlot p.directory = .ok (place, key) →
      (d.put place key (.file mode data)).drop place key = d := by
  intro answer left
  have hanswer : answer = .ok () ↔ (d.save p (Utf8.encode s.render)).1 = .ok () := by
    simp only [answer, ask_saveSource, mapError_eq_ok_iff]
  refine ⟨hanswer.trans (save_eq_ok_iff hd), ?_, ?_, ?_⟩
  · intro hok
    rcases save_cases hd p (Utf8.encode s.render) with
      ⟨e, hsave⟩ | ⟨place, name, hnames, hflat, hsave⟩
    · rw [hanswer, hsave] at hok
      cases hok
    · have hleft : left = d.put place name (.file (d.savedMode p) (Utf8.encode s.render)) := by
        simp only [left, ask_saveSource, hsave]
      have hsets := hnames.sets_put hflat
        (rfl : (Node.file (d.savedMode p) (Utf8.encode s.render)).isDirectory = false)
      rw [hleft]
      refine ⟨place, name, d.savedMode p, hsets, ?_, ?_⟩
      · intro other n hn
        refine ⟨mode?_of_lookUp hn, ?_⟩
        intro hother
        obtain ⟨_, _, hnode⟩ := lookUp_eq_ok_iff.mp hn
        exact (hsets.elsewhere other hother).trans (congrArg (Option.map Node.own) hnode)
      · intro hnowhere
        rw [savedMode]
        split
        · exact absurd ‹_› (hnowhere _)
        · rfl
  · intro e he
    rcases save_cases hd p (Utf8.encode s.render) with
      ⟨fault, hsave⟩ | ⟨place, name, _, _, hsave⟩
    · have hleft : left = d := by simp only [left, ask_saveSource, hsave]
      simp only [answer, ask_saveSource, hsave] at he
      exact ⟨⟨fault, (Except.error.inj he).symm⟩, hleft⟩
    · simp only [answer, ask_saveSource, hsave] at he
      cases he
  · intro place key mode data hscratch
    obtain ⟨_, _, entries, hat, hfree⟩ := scratchSlot_eq_ok hscratch
    rw [put, drop, Node.drop_put hat hd hfree]

/-- A disk with a file that only its group may read too, and an absolute link to it. -/
def aliased : Disk where
  home := [Utf8.encode "w".toList]
  top := .directory 0o755 [
    (Utf8.encode "w".toList, .directory 0o755 [
      (Utf8.encode "alias".toList, .symlink (.ofText "/w/lib.rs".toList)),
      (Utf8.encode "lib.rs".toList, .file 0o640 (Utf8.encode "old\n".toList))])]

/-- A link is replaced by a file with the mode of what it led to, which stays as it is. -/
theorem saveSource_all_or_nothing_aliased :
    let s : SourceText := ⟨["new".toList], .lf, true⟩
    let left := (aliased.ask (Disk.files.saveSource (.ofText "/w/alias".toList) s)).2
    left.top.at? [Utf8.encode "w".toList, Utf8.encode "alias".toList] =
        some (.file 0o640 (Utf8.encode "new\n".toList)) ∧
      left.top.at? [Utf8.encode "w".toList, Utf8.encode "lib.rs".toList] =
        some (.file 0o640 (Utf8.encode "old\n".toList)) := by
  intro s left
  have hsound : aliased.top.Sound := by decide
  have hsaved : (aliased.ask (Disk.files.saveSource (.ofText "/w/alias".toList) s)).1 = .ok () :=
    rfl
  have hslot : aliased.top.slot aliased.home (.ofText "/w/alias".toList) =
      .ok ⟨[Utf8.encode "w".toList], Utf8.encode "alias".toList, false⟩ := rfl
  have hlook : aliased.lookUp (.ofText "/w/alias".toList) =
      .ok ([Utf8.encode "w".toList, Utf8.encode "lib.rs".toList],
        .file 0o640 (Utf8.encode "old\n".toList)) := rfl
  obtain ⟨_, hsets, _⟩ := saveSource_all_or_nothing hsound (.ofText "/w/alias".toList) s
  obtain ⟨place, name, mode, hset, hled, _⟩ := hsets hsaved
  obtain ⟨rfl, rfl, _⟩ := Slot.mk.inj (Except.ok.inj (hslot.symm.trans hset.names.slot))
  obtain ⟨hmode, huntouched⟩ := hled _ _ hlook
  obtain rfl : 0o640 = mode := Option.some.inj hmode
  refine ⟨hset.stands, ?_⟩
  obtain ⟨n, hn, hown⟩ := Option.map_eq_some_iff.mp (huntouched (by decide))
  have hfile : n = .file 0o640 (Utf8.encode "old\n".toList) := by
    cases n with
    | file mode data => exact hown
    | directory mode entries => cases hown
    | symlink target => cases hown
    | socket mode => cases hown
  exact hfile ▸ hn

end Disk

end Marginalia
