import Marginalia.Proofs.Tree.Exploring
/-!
The order in which directories list their entries. It is of no account to what paths lead to.
-/

namespace Marginalia

namespace Node

/-- Trees that differ in the order of entries only, in any number of directories. -/
inductive Reordered : Node → Node → Prop
  | refl (n : Node) : Reordered n n
  | entry (mode : Nat) (before : List (Name × Node)) (name : Name) {child other : Node}
      (after : List (Name × Node)) (h : Reordered child other) :
      Reordered (.directory mode (before ++ (name, child) :: after))
        (.directory mode (before ++ (name, other) :: after))
  | listing (mode : Nat) {entries others : List (Name × Node)} (h : entries.Perm others) :
      Reordered (.directory mode entries) (.directory mode others)
  | trans {n m k : Node} (h : Reordered n m) (h' : Reordered m k) : Reordered n k

theorem Reordered.sound {n m : Node} (h : n.Reordered m) (hn : n.Sound) : m.Sound := by
  induction h with
  | refl n => exact hn
  | entry mode before name after h ih =>
    have honce := hn.once
    have hnames := hn.names
    have hchildren := hn.children
    simp only [List.forall_mem_append, List.forall_mem_cons] at hnames hchildren
    refine .directory _ _ ?_ ?_ ?_
    · simpa using honce
    · simp only [List.forall_mem_append, List.forall_mem_cons]
      exact hnames
    · simp only [List.forall_mem_append, List.forall_mem_cons]
      exact ⟨hchildren.1, ih hchildren.2.1, hchildren.2.2⟩
  | listing mode h =>
    refine .directory _ _ ((h.map _).nodup_iff.mp hn.once) ?_ ?_
    · exact fun e he => hn.names e (h.mem_iff.mpr he)
    · exact fun e he => hn.children e (h.mem_iff.mpr he)
  | trans _ _ ih ih' => exact ih' (ih hn)

/-- Nothing here and nothing there, or the same up to order. -/
def Alike (a b : Option Node) : Prop :=
  a = none ∧ b = none ∨ ∃ n m, a = some n ∧ b = some m ∧ n.Reordered m

theorem Reordered.alike {n m : Node} (h : n.Reordered m) : Alike (some n) (some m) :=
  Or.inr ⟨n, m, rfl, rfl, h⟩

theorem Alike.refl (found : Option Node) : Alike found found := by
  cases found with
  | none => exact Or.inl ⟨rfl, rfl⟩
  | some n => exact (Reordered.refl n).alike

theorem Alike.trans {a b c : Option Node} (h : Alike a b) (h' : Alike b c) : Alike a c := by
  rcases h with ⟨rfl, rfl⟩ | ⟨n, m, rfl, rfl, h⟩
  · exact h'
  · rcases h' with ⟨hb, _⟩ | ⟨m', k, hb, rfl, h'⟩
    · cases hb
    · obtain rfl := Option.some.inj hb
      exact (h.trans h').alike

theorem lookup_perm {entries others : List (Name × Node)} (h : entries.Perm others)
    (honce : (entries.map (·.1)).Nodup) (name : Name) :
    entries.lookup name = others.lookup name := by
  have honce' : (others.map (·.1)).Nodup := (h.map _).nodup_iff.mp honce
  apply Option.ext
  intro child
  constructor
  · intro hc
    exact lookup_of_mem honce' (h.mem_iff.mp (mem_of_lookup hc))
  · intro hc
    exact lookup_of_mem honce (h.mem_iff.mpr (mem_of_lookup hc))

theorem alike_lookup_entry (before after : List (Name × Node)) (key : Name) {child other : Node}
    (h : child.Reordered other) (name : Name) :
    Alike ((before ++ (key, child) :: after).lookup name)
      ((before ++ (key, other) :: after).lookup name) := by
  rw [List.lookup_append, List.lookup_append]
  cases before.lookup name with
  | some n => exact .refl _
  | none =>
    simp only [List.lookup_cons, Option.none_or]
    cases name == key with
    | true => exact h.alike
    | false => exact .refl _

/-- What reordering leaves alone: anything but a directory, and of a directory the mode and what is
found under a name. -/
theorem Reordered.shape {n m : Node} (h : n.Reordered m) (hn : n.Sound) :
    n = m ∧ n.isDirectory = false ∨
      ∃ mode entries others, n = .directory mode entries ∧ m = .directory mode others ∧
        ∀ name, Alike (entries.lookup name) (others.lookup name) := by
  -- A tree can be reordered many times over, so the induction is on how it was, not on the tree.
  induction h with
  | refl n =>
    cases n with
    | directory mode entries => exact Or.inr ⟨mode, entries, entries, rfl, rfl, fun _ => .refl _⟩
    | file mode data => exact Or.inl ⟨rfl, rfl⟩
    | symlink target => exact Or.inl ⟨rfl, rfl⟩
    | socket mode => exact Or.inl ⟨rfl, rfl⟩
  | entry mode before name after h _ =>
    exact Or.inr ⟨mode, _, _, rfl, rfl, alike_lookup_entry before after name h⟩
  | listing mode h =>
    refine Or.inr ⟨mode, _, _, rfl, rfl, ?_⟩
    intro name
    rw [lookup_perm h hn.once]
    exact .refl _
  | trans h _ ih ih' =>
    rcases ih hn with ⟨rfl, _⟩ | ⟨mode, entries, middle, rfl, rfl, halike⟩
    · exact ih' hn
    · rcases ih' (h.sound hn) with ⟨rfl, hfile⟩ | ⟨mode', middle', others, he, rfl, halike'⟩
      · cases hfile
      · obtain ⟨rfl, rfl⟩ := Node.directory.inj he
        refine Or.inr ⟨mode, entries, others, rfl, rfl, ?_⟩
        intro name
        exact (halike name).trans (halike' name)

theorem Reordered.isDirectory_eq {n m : Node} (h : n.Reordered m) :
    n.isDirectory = m.isDirectory := by
  induction h with
  | refl n => rfl
  | entry mode before name after h ih => rfl
  | listing mode h => rfl
  | trans _ _ ih ih' => exact ih.trans ih'

theorem Reordered.at? {n m : Node} (h : n.Reordered m) (hn : n.Sound) (place : Place) :
    Alike (n.at? place) (m.at? place) := by
  induction place generalizing n m with
  | nil => exact h.alike
  | cons name place ih =>
    rcases h.shape hn with ⟨rfl, _⟩ | ⟨mode, entries, others, rfl, rfl, halike⟩
    · exact .refl _
    · simp only [Node.at?]
      rcases halike name with ⟨ha, hb⟩ | ⟨child, other, ha, hb, hchild⟩
      · rw [ha, hb]
        exact .refl _
      · rw [ha, hb]
        exact ih hchild (hn.children _ (mem_of_lookup ha))

end Node

namespace Walk

theorem enter_reordered (mode : Nat) {entries others : List (Name × Node)}
    (hlook : ∀ name, Node.Alike (entries.lookup name) (others.lookup name)) (name : Name) :
    (∃ e, enter mode entries name = .error e ∧ enter mode others name = .error e) ∨
      ∃ n m, enter mode entries name = .ok n ∧ enter mode others name = .ok m ∧
        (name, n) ∈ entries ∧ n.Reordered m := by
  unfold enter
  split
  · exact Or.inl ⟨_, rfl, rfl⟩
  · split
    · exact Or.inl ⟨_, rfl, rfl⟩
    · rcases hlook name with ⟨ha, hb⟩ | ⟨n, m, ha, hb, h⟩
      · rw [ha, hb]
        exact Or.inl ⟨_, rfl, rfl⟩
      · rw [ha, hb]
        exact Or.inr ⟨n, m, rfl, rfl, mem_of_lookup ha, h⟩

section

variable {top other : Node} (h : top.Reordered other) (htop : top.Sound)
include h htop

/-- A walk goes by names, so it does not notice in which order they are listed. -/
theorem along_reordered (jump : Jump) (place : Place) (segments : List Bytes) :
    along top jump place segments = along other jump place segments := by
  induction segments generalizing place with
  | nil => rfl
  | cons segment rest ih =>
    rw [along, along]
    rcases h.at? htop place with ⟨hn, hm⟩ | ⟨n, m, hn, hm, hnm⟩
    · rw [hn, hm]
    · rw [hn, hm]
      have hsound := htop.at? hn
      rcases hnm.shape hsound with ⟨rfl, _⟩ | ⟨mode, entries, others, rfl, rfl, hlook⟩
      · simp only [ih]
      · rcases enter_reordered mode hlook segment with
          ⟨e, hentry, hother⟩ | ⟨child, other, hentry, hother, hmem, hchild⟩
        · simp only [ih, hentry, hother]
        · rcases hchild.shape (hsound.children _ hmem) with ⟨rfl, _⟩ | ⟨_, _, _, rfl, rfl, _⟩
          · simp only [ih, hentry, hother]
          · simp only [ih, hentry, hother]

theorem within_reordered (links : Nat) : within top links = within other links := by
  induction links with
  | zero =>
    funext place segments
    exact along_reordered h htop _ place segments
  | succ links ih =>
    funext place segments
    rw [within, within, ih]
    exact along_reordered h htop _ place segments

theorem resolve_reordered (here : Place) (p : Path) :
    top.resolve here p = other.resolve here p := by
  rw [Node.resolve, Node.resolve, within_reordered h htop]

end

end Walk

namespace Node

theorem cutEntries_eq_flatMap (room : Nat) (entries : List (Name × Node)) :
    cutEntries room entries = entries.flatMap (cutEntry room) := by
  induction entries with
  | nil => rfl
  | cons entry rest ih => rw [cutEntries, ih, List.flatMap_cons]

theorem Reordered.cut {n m : Node} (h : n.Reordered m) (room : Nat) :
    (n.cut room).Reordered (m.cut room) := by
  induction h generalizing room with
  | refl n => exact .refl _
  | entry mode before name after h ih =>
    simp only [Node.cut, cutEntries_eq_flatMap, List.flatMap_append, List.flatMap_cons, cutEntry]
    split
    · exact .entry mode _ name _ (ih _)
    · exact .refl _
  | listing mode h =>
    simp only [Node.cut, cutEntries_eq_flatMap]
    exact .listing mode (h.flatMap_right _)
  | trans _ _ ih ih' => exact (ih room).trans (ih' room)

theorem keys_cutEntries (room : Nat) (entries : List (Name × Node)) :
    ((cutEntries room entries).map (·.1)).Sublist (entries.map (·.1)) := by
  induction entries with
  | nil => exact List.Sublist.refl _
  | cons entry rest ih =>
    rw [cutEntries, cutEntry]
    split
    · exact ih.cons_cons _
    · exact ih.cons _

theorem Sound.cut {n : Node} (h : n.Sound) (room : Nat) : (n.cut room).Sound := by
  induction n using Node.byEntries generalizing room with
  | file mode data => exact h
  | symlink target => exact h
  | socket mode => exact h
  | directory mode entries ih =>
    have hkeys := keys_cutEntries room entries
    refine .directory _ _ (h.once.sublist hkeys) ?_ ?_
    · intro e he
      obtain ⟨entry, hentry, hname⟩ := List.mem_map.mp (hkeys.subset (List.mem_map_of_mem he))
      exact hname ▸ h.names entry hentry
    · intro e he
      rw [cutEntries_eq_flatMap] at he
      obtain ⟨⟨name, child⟩, hentry, hcut⟩ := List.mem_flatMap.mp he
      rw [cutEntry] at hcut
      split at hcut
      · obtain rfl := List.mem_singleton.mp hcut
        exact ih _ hentry (h.children _ hentry) _
      · cases hcut

end Node

namespace Disk

/-- Disks that differ only in the order in which directories are listed. -/
structure Reordered (d other : Disk) : Prop where
  home : d.home = other.home
  top : d.top.Reordered other.top

variable {d other : Disk} (h : d.Reordered other) (hd : d.top.Sound)
include h hd

theorem find_reordered (p : Path) :
    (∃ e, d.find p = .error e ∧ other.find p = .error e) ∨
      ∃ place n m, d.find p = .ok (place, n) ∧ other.find p = .ok (place, m) ∧ n.Reordered m := by
  have hsame := Walk.resolve_reordered h.top hd d.home p
  rw [h.home] at hsame
  cases hresolve : d.top.resolve other.home p with
  | error e =>
    refine Or.inl ⟨e, ?_, ?_⟩
    · rw [find, h.home, hresolve]
      rfl
    · rw [find, ← hsame, hresolve]
      rfl
  | ok place =>
    rw [find_of_resolve (h.home ▸ hresolve), find_of_resolve (hsame ▸ hresolve)]
    rcases h.top.at? hd place with ⟨hn, hm⟩ | ⟨n, m, hn, hm, hnm⟩
    · rw [hn, hm]
      exact Or.inl ⟨_, rfl, rfl⟩
    · rw [hn, hm]
      exact Or.inr ⟨place, n, m, rfl, rfl, hnm⟩

theorem lookUp_reordered (p : Path) :
    (∃ e, d.lookUp p = .error e ∧ other.lookUp p = .error e) ∨
      ∃ place n m, d.lookUp p = .ok (place, n) ∧ other.lookUp p = .ok (place, m) ∧
        n.Reordered m := by
  cases hbytes : checkBytes p with
  | error e => exact Or.inl ⟨e, by rw [lookUp, hbytes]; rfl, by rw [lookUp, hbytes]; rfl⟩
  | ok _ =>
    rw [lookUp_of_checkBytes hbytes, lookUp_of_checkBytes hbytes]
    rcases find_reordered h hd p with ⟨e, he, he'⟩ | ⟨place, n, m, hn, hm, hnm⟩
    · exact Or.inl ⟨.system e, by rw [he]; rfl, by rw [he']; rfl⟩
    · exact Or.inr ⟨place, n, m, by rw [hn]; rfl, by rw [hm]; rfl, hnm⟩

theorem canonical_reordered (p : Path) : d.canonical p = other.canonical p := by
  have hwithin := Walk.within_reordered (h.top.cut Walk.pathLimit) (hd.cut Walk.pathLimit)
  rw [canonical, canonical, outset, outset, h.home]
  simp only [hwithin]

end Disk

end Marginalia
