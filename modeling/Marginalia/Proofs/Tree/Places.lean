import Mathlib.Data.List.Induction
import Mathlib.Data.List.Nodup
import Marginalia.Tree.Disk
/-!
The places of a tree: which trees a system can hold, what stands where in them, and when a path that
spells a place out leads there.
-/

namespace Marginalia

/-- What the name of an entry in a directory can be. -/
structure Path.EntryName (name : Name) : Prop where
  ne_nil : name ≠ []
  ne_current : name ≠ Path.current
  ne_parentName : name ≠ Path.parentName
  slash_not_mem : Path.slash ∉ name
  zero_not_mem : 0 ∉ name
  length_le : name.length ≤ Walk.nameLimit

instance (name : Name) : Decidable (Path.EntryName name) :=
  decidable_of_iff
    (name ≠ [] ∧ name ≠ Path.current ∧ name ≠ Path.parentName ∧ Path.slash ∉ name ∧
      0 ∉ name ∧ name.length ≤ Walk.nameLimit)
    ⟨fun ⟨h₁, h₂, h₃, h₄, h₅, h₆⟩ => ⟨h₁, h₂, h₃, h₄, h₅, h₆⟩,
      fun ⟨h₁, h₂, h₃, h₄, h₅, h₆⟩ => ⟨h₁, h₂, h₃, h₄, h₅, h₆⟩⟩

theorem lookup_of_mem {entries : List (Name × Node)} {name : Name} {n : Node}
    (hnames : (entries.map (·.1)).Nodup) (h : (name, n) ∈ entries) :
    entries.lookup name = some n := by
  obtain ⟨before, after, rfl⟩ := List.append_of_mem h
  apply List.lookup_eq_some_iff.mpr
  refine ⟨before, after, rfl, ?_⟩
  intro e he
  rw [List.map_append, List.map_cons] at hnames
  have hne := List.disjoint_of_nodup_append hnames (List.mem_map_of_mem he)
  have hfirst : e.1 ≠ name := fun heq => hne (heq ▸ List.mem_cons_self)
  simpa using hfirst.symm

theorem mem_of_lookup {entries : List (Name × Node)} {name : Name} {n : Node}
    (h : entries.lookup name = some n) : (name, n) ∈ entries := by
  obtain ⟨before, after, rfl, _⟩ := List.lookup_eq_some_iff.mp h
  simp

namespace Node

/-- Induction over a tree, one directory after another. -/
@[elab_as_elim]
theorem byEntries {P : Node → Prop} (n : Node) (file : ∀ mode data, P (.file mode data))
    (directory : ∀ mode entries, (∀ e ∈ entries, P e.2) → P (.directory mode entries))
    (symlink : ∀ target, P (.symlink target)) (socket : ∀ mode, P (.socket mode)) : P n :=
  @Node.rec P (fun entries => ∀ e ∈ entries, P e.2) (fun e => P e.2) file directory symlink socket
    (fun _ h => absurd h List.not_mem_nil)
    (fun _ _ hhead htail e he => (List.mem_cons.mp he).elim (fun h => h ▸ hhead) (htail e))
    (fun _ _ h => h) n

/-- A tree as a system keeps it: the names in a directory are names, and each stands there once. -/
inductive Sound : Node → Prop
  | file (mode : Nat) (data : Bytes) : Sound (.file mode data)
  | directory (mode : Nat) (entries : List (Name × Node))
      (once : (entries.map (·.1)).Nodup)
      (names : ∀ e ∈ entries, Path.EntryName e.1)
      (children : ∀ e ∈ entries, Sound e.2) : Sound (.directory mode entries)
  | symlink (target : Path) : Sound (.symlink target)
  | socket (mode : Nat) : Sound (.socket mode)

section Directory

variable {mode : Nat} {entries : List (Name × Node)} (h : Sound (.directory mode entries))
include h

theorem Sound.once : (entries.map (·.1)).Nodup := by
  cases h with
  | directory _ _ once _ _ => exact once

theorem Sound.names : ∀ e ∈ entries, Path.EntryName e.1 := by
  cases h with
  | directory _ _ _ names _ => exact names

theorem Sound.children : ∀ e ∈ entries, Sound e.2 := by
  cases h with
  | directory _ _ _ _ children => exact children

theorem Sound.lookup_eq_some_iff {name : Name} {child : Node} :
    entries.lookup name = some child ↔ (name, child) ∈ entries :=
  ⟨mem_of_lookup, lookup_of_mem h.once⟩

end Directory

mutual

/-- The same as a check that can be run. -/
def isSound : Node → Bool
  | directory _ entries => decide (entries.map (·.1)).Nodup && areSound entries
  | _ => true
termination_by structural n => n

def areSound : List (Name × Node) → Bool
  | [] => true
  | entry :: rest => isSoundEntry entry && areSound rest
termination_by structural entries => entries

def isSoundEntry : Name × Node → Bool
  | (name, n) => decide (Path.EntryName name) && isSound n
termination_by structural entry => entry

end

theorem areSound_iff {entries : List (Name × Node)} :
    areSound entries = true ↔ ∀ e ∈ entries, Path.EntryName e.1 ∧ e.2.isSound = true := by
  induction entries with
  | nil => simp [areSound]
  | cons e entries ih =>
    rw [areSound, Bool.and_eq_true, ih, List.forall_mem_cons]
    obtain ⟨name, n⟩ := e
    rw [isSoundEntry, Bool.and_eq_true, decide_eq_true_iff]

theorem isSound_iff {n : Node} : n.isSound = true ↔ n.Sound := by
  induction n using Node.byEntries with
  | file mode data => exact ⟨fun _ => .file mode data, fun _ => rfl⟩
  | symlink target => exact ⟨fun _ => .symlink target, fun _ => rfl⟩
  | socket mode => exact ⟨fun _ => .socket mode, fun _ => rfl⟩
  | directory mode entries ih =>
    rw [isSound, Bool.and_eq_true, decide_eq_true_iff, areSound_iff]
    constructor
    · intro h
      exact .directory mode entries h.1 (fun e he => (h.2 e he).1)
        (fun e he => (ih e he).mp (h.2 e he).2)
    · intro h
      exact ⟨h.once, fun e he => ⟨h.names e he, (ih e he).mpr (h.children e he)⟩⟩

instance (n : Node) : Decidable n.Sound := decidable_of_iff _ isSound_iff

theorem at?_append (n : Node) (first second : Place) :
    n.at? (first ++ second) = (n.at? first).bind (at? second) := by
  induction first generalizing n with
  | nil => simp [at?]
  | cons name first ih =>
    cases n with
    | directory mode entries =>
      simp only [List.cons_append, at?]
      cases entries.lookup name with
      | none => rfl
      | some child => exact ih child
    | file mode data => rfl
    | symlink target => rfl
    | socket mode => rfl

/-- Only directories have something below them. -/
theorem at?_concat_eq_some_iff {n child : Node} {place : Place} {name : Name} :
    n.at? (place ++ [name]) = some child ↔
      ∃ mode entries, n.at? place = some (.directory mode entries) ∧
        entries.lookup name = some child := by
  rw [at?_append]
  cases hp : n.at? place with
  | none => simp
  | some m =>
    cases m with
    | directory mode entries =>
      cases hl : entries.lookup name <;> simp [at?, hl]
    | file mode data => simp [at?]
    | symlink target => simp [at?]
    | socket mode => simp [at?]

/-- Where there is a directory at all, the top is one. -/
theorem eq_directory_of_at? {n : Node} {place : Place} {mode : Nat} {entries : List (Name × Node)}
    (h : n.at? place = some (.directory mode entries)) : ∃ m es, n = .directory m es := by
  cases n with
  | directory m es => exact ⟨m, es, rfl⟩
  | file m data => cases place <;> cases h
  | symlink target => cases place <;> cases h
  | socket m => cases place <;> cases h

theorem at?_below_eq_none {n : Node} {place rest : Place}
    (hflat : ∀ m, n.at? place = some m → m.isDirectory = false) (hrest : rest ≠ []) :
    n.at? (place ++ rest) = none := by
  rw [at?_append]
  cases hm : n.at? place with
  | none => rfl
  | some m =>
    obtain ⟨key, others, rfl⟩ := List.exists_cons_of_ne_nil hrest
    cases m with
    | directory mode entries => cases hflat _ hm
    | file mode data => rfl
    | symlink target => rfl
    | socket mode => rfl

theorem not_prefix_of_not_directory {n : Node} {entry place : Place}
    (hflat : ∀ m, n.at? entry = some m → m.isDirectory = false) {mode : Nat}
    {entries : List (Name × Node)} (hp : n.at? place = some (.directory mode entries)) :
    ¬ entry <+: place := by
  intro hprefix
  obtain ⟨rest, rfl⟩ := hprefix
  by_cases hrest : rest = []
  · rw [hrest, List.append_nil] at hp
    cases hflat _ hp
  · rw [at?_below_eq_none hflat hrest] at hp
    cases hp

theorem at?_concat_of_directory {n : Node} {place : Place} {mode : Nat}
    {entries : List (Name × Node)} (h : n.at? place = some (.directory mode entries))
    (name : Name) : n.at? (place ++ [name]) = entries.lookup name := by
  rw [at?_append, h]
  cases hl : entries.lookup name <;> simp [at?, hl]

theorem Sound.at? {n m : Node} (h : n.Sound) {place : Place} (hm : n.at? place = some m) :
    m.Sound := by
  induction place using List.reverseRecOn generalizing m with
  | nil => exact Option.some.inj hm ▸ h
  | append_singleton place name ih =>
    obtain ⟨mode, entries, hdirectory, hlookup⟩ := at?_concat_eq_some_iff.mp hm
    exact (ih hdirectory).children _ (mem_of_lookup hlookup)

theorem Sound.names_of_at? {n m : Node} (h : n.Sound) {place : Place} (hm : n.at? place = some m) :
    ∀ name ∈ place, Path.EntryName name := by
  induction place generalizing n with
  | nil => simp
  | cons first place ih =>
    cases n with
    | directory mode entries =>
      simp only [Node.at?, Option.bind_eq_some_iff] at hm
      obtain ⟨child, hchild, hrest⟩ := hm
      have hmem := mem_of_lookup hchild
      intro name hname
      rcases List.mem_cons.mp hname with rfl | hname
      · exact h.names _ hmem
      · exact ih (h.children _ hmem) hrest name hname
    | file mode data => simp [Node.at?] at hm
    | symlink target => simp [Node.at?] at hm
    | socket mode => simp [Node.at?] at hm

/-- All directories on the way to a place may be searched. -/
def mayPass : Place → Node → Bool
  | name :: rest, directory mode entries =>
    Mode.maySearch mode && ((entries.lookup name).map (mayPass rest)).getD false
  | [], _ => true
  | _ :: _, _ => false

theorem mayPass_concat {n : Node} {place : Place} {name : Name} {mode : Nat}
    {entries : List (Name × Node)} (hn : n.at? place = some (.directory mode entries))
    (hname : (entries.lookup name).isSome) :
    n.mayPass (place ++ [name]) = (n.mayPass place && Mode.maySearch mode) := by
  induction place generalizing n with
  | nil =>
    obtain rfl : n = .directory mode entries := Option.some.inj hn
    obtain ⟨child, hchild⟩ := Option.isSome_iff_exists.mp hname
    simp [mayPass, hchild]
  | cons first place ih =>
    cases n with
    | directory m es =>
      simp only [Node.at?, Option.bind_eq_some_iff] at hn
      obtain ⟨child, hchild, hrest⟩ := hn
      simp [mayPass, hchild, ih hrest, Bool.and_assoc]
    | file mode data => simp [Node.at?] at hn
    | symlink target => simp [Node.at?] at hn
    | socket mode => simp [Node.at?] at hn

end Node

namespace Walk

/-- One name on the way of a path, under which no link stands. -/
theorem along_entry {top child : Node} (jump : Jump) {start : Place} {mode : Nat}
    {entries : List (Name × Node)} {name : Name}
    (hstart : top.at? start = some (.directory mode entries)) (hname : Path.EntryName name)
    (hchild : entries.lookup name = some child) (hlink : child.isSymlink = false)
    (rest : List Bytes) :
    along top jump start (name :: rest) =
      if Mode.maySearch mode then along top jump (start ++ [name]) rest else .error .denied := by
  have hmark : ¬ (name = Path.current ∨ name = Path.parentName) := by
    rintro (he | he)
    · exact hname.ne_current he
    · exact hname.ne_parentName he
  have hlength : ¬ name.length > nameLimit := Nat.not_lt.mpr hname.length_le
  rw [along, hstart]
  simp only [if_neg hname.ne_nil, if_neg hmark, enter, if_neg hlength, hchild]
  cases Mode.maySearch mode with
  | false => rfl
  | true =>
    cases child with
    | symlink target => cases hlink
    | file fmode data => rfl
    | directory dmode es => rfl
    | socket smode => rfl

/-- A path that spells out a place where no link stands leads to it, if all directories on the way
let it pass; no link is met. -/
theorem along_place {top m k : Node} (htop : top.Sound) (jump : Jump) {start rest : Place}
    (hm : top.at? start = some m) (hk : m.at? rest = some k) (hlink : k.isSymlink = false) :
    along top jump start rest =
      if m.mayPass rest then .ok (start ++ rest) else .error .denied := by
  induction rest generalizing start m with
  | nil => simp [along, Node.mayPass]
  | cons name rest ih =>
    cases m with
    | directory mode entries =>
      simp only [Node.at?, Option.bind_eq_some_iff] at hk
      obtain ⟨child, hchild, hk⟩ := hk
      have hname := (htop.at? hm).names _ (mem_of_lookup hchild)
      have hplain : child.isSymlink = false := by
        cases rest with
        | nil => exact Option.some.inj hk ▸ hlink
        | cons next rest =>
          cases child with
          | symlink target => simp [Node.at?] at hk
          | file fmode data => rfl
          | directory dmode es => rfl
          | socket smode => rfl
      have hstart : top.at? (start ++ [name]) = some child :=
        Node.at?_concat_eq_some_iff.mpr ⟨mode, entries, hm, hchild⟩
      rw [along_entry jump hm hname hchild hplain, ih hstart hk, List.append_assoc]
      cases hsearch : Mode.maySearch mode with
      | false => simp [Node.mayPass, hsearch]
      | true => simp [Node.mayPass, hsearch, hchild]
    | file mode data => simp [Node.at?] at hk
    | symlink target => simp [Node.at?] at hk
    | socket mode => simp [Node.at?] at hk

end Walk

end Marginalia
