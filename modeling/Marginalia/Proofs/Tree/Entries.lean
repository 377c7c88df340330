import Marginalia.Proofs.Tree.Places
/-!
Putting a node into a directory and taking it out again. Nothing but the entry itself changes, and
taking out what was put under a free name gives back the very same tree.
-/

namespace Marginalia

section Listings

variable {entries : List (Name × Node)} {name : Name}

theorem ne_of_lookup_eq_none (h : entries.lookup name = none) : ∀ e ∈ entries, e.1 ≠ name := by
  intro e he heq
  have hne := List.lookup_eq_none_iff.mp h e he
  simp [heq] at hne

/-- The change that an update of one entry makes. -/
def changeEntry (f : Node → Node) (name : Name) (e : Name × Node) : Name × Node :=
  if e.1 = name then (e.1, f e.2) else e

theorem changeEntry_key (f : Node → Node) (name : Name) (e : Name × Node) :
    (changeEntry f name e).1 = e.1 := by
  unfold changeEntry
  split <;> rfl

theorem keys_map_changeEntry (f : Node → Node) (name : Name) (entries : List (Name × Node)) :
    (entries.map (changeEntry f name)).map (·.1) = entries.map (·.1) := by
  rw [List.map_map]
  exact List.map_congr_left (fun e _ => changeEntry_key f name e)

theorem lookup_map_changeEntry (f : Node → Node) (name key : Name)
    (entries : List (Name × Node)) :
    (entries.map (changeEntry f name)).lookup key =
      if key = name then (entries.lookup key).map f else entries.lookup key := by
  induction entries with
  | nil => simp
  | cons e entries ih =>
    obtain ⟨other, child⟩ := e
    by_cases hother : other = name
    · by_cases hkey : key = name
      · simp [changeEntry, hother, hkey]
      · have hne : (key == name) = false := by simpa using hkey
        simpa [changeEntry, hother, hkey, List.lookup_cons, hne] using ih
    · by_cases hfirst : key = other
      · simp [changeEntry, hother, hfirst]
      · have hne : (key == other) = false := by simpa using hfirst
        simpa [changeEntry, hother, List.lookup_cons, hne] using ih

/-- The entry of a name, with what stands before and after it. -/
theorem exists_around_of_lookup {entries : List (Name × Node)} {name : Name} {n : Node}
    (honce : (entries.map (·.1)).Nodup) (h : entries.lookup name = some n) :
    ∃ before after, entries = before ++ (name, n) :: after ∧ ∀ e ∈ before ++ after, e.1 ≠ name := by
  obtain ⟨before, after, rfl⟩ := List.append_of_mem (mem_of_lookup h)
  refine ⟨before, after, rfl, ?_⟩
  rw [List.map_append, List.map_cons, List.nodup_middle, List.nodup_cons,
    ← List.map_append] at honce
  intro e he heq
  have hkey : e.1 ∈ (before ++ after).map (·.1) := List.mem_map_of_mem he
  exact honce.1 (heq ▸ hkey)

section Around

variable {before after : List (Name × Node)} (hother : ∀ e ∈ before ++ after, e.1 ≠ name)
include hother

theorem map_changeEntry_around (f : Node → Node) (n : Node) :
    (before ++ (name, n) :: after).map (changeEntry f name) = before ++ (name, f n) :: after := by
  have hkeep : ∀ e ∈ before ++ after, changeEntry f name e = e :=
    fun e he => if_neg (hother e he)
  have hbefore : before.map (changeEntry f name) = before :=
    (List.map_congr_left fun e he => hkeep e (List.mem_append_left _ he)).trans (List.map_id' _)
  have hafter : after.map (changeEntry f name) = after :=
    (List.map_congr_left fun e he => hkeep e (List.mem_append_right _ he)).trans (List.map_id' _)
  rw [List.map_append, List.map_cons, hbefore, hafter, changeEntry, if_pos rfl]

theorem dropEntry_around (n : Node) :
    Node.dropEntry name (before ++ (name, n) :: after) = before ++ after := by
  have hkeep : (before ++ after).filter (fun e => decide (e.1 ≠ name)) = before ++ after :=
    List.filter_eq_self.mpr fun e he => decide_eq_true (hother e he)
  rw [← hkeep, Node.dropEntry, List.filter_append, List.filter_append]
  simp

end Around

namespace Node

theorem putEntry_of_isSome {child : Node} (h : (entries.lookup name).isSome) :
    putEntry name child entries = entries.map (changeEntry (fun _ => child) name) := by
  rw [putEntry, if_pos h]
  rfl

theorem putEntry_of_eq_none {child : Node} (h : entries.lookup name = none) :
    putEntry name child entries = entries ++ [(name, child)] := by
  simp [putEntry, h]

theorem lookup_putEntry (child : Node) (key : Name) :
    (putEntry name child entries).lookup key =
      if key = name then some child else entries.lookup key := by
  cases hname : entries.lookup name with
  | some old =>
    rw [putEntry_of_isSome (by simp [hname]), lookup_map_changeEntry]
    by_cases hkey : key = name
    · simp [hkey, hname]
    · simp [hkey]
  | none =>
    rw [putEntry_of_eq_none hname, List.lookup_append]
    by_cases hkey : key = name
    · simp [hkey, hname]
    · have hne : (key == name) = false := by simpa using hkey
      simp [hkey, List.lookup_cons, hne]

theorem dropEntry_putEntry (child : Node) (h : entries.lookup name = none) :
    dropEntry name (putEntry name child entries) = entries := by
  have hkeep : entries.filter (fun e => decide (e.1 ≠ name)) = entries := by
    apply List.filter_eq_self.mpr
    intro e he
    exact decide_eq_true (ne_of_lookup_eq_none h e he)
  rw [putEntry_of_eq_none h, dropEntry, List.filter_append, hkeep]
  simp

theorem lookup_dropEntry (name key : Name) (entries : List (Name × Node)) :
    (dropEntry name entries).lookup key = if key = name then none else entries.lookup key := by
  induction entries with
  | nil => simp [dropEntry]
  | cons e entries ih =>
    obtain ⟨other, child⟩ := e
    by_cases hother : other = name
    · have hdrop : dropEntry name ((other, child) :: entries) = dropEntry name entries := by
        simp [dropEntry, hother]
      rw [hdrop, ih]
      by_cases hkey : key = name
      · simp [hkey]
      · have hne : (key == other) = false := by simpa [hother] using hkey
        simp [hkey, List.lookup_cons, hne]
    · have hkeep : dropEntry name ((other, child) :: entries) =
          (other, child) :: dropEntry name entries := by
        simp [dropEntry, hother]
      rw [hkeep, List.lookup_cons, List.lookup_cons, ih]
      by_cases hfirst : key = other
      · simp [hfirst, hother]
      · have hne : (key == other) = false := by simpa using hfirst
        simp [hne]

theorem mem_putEntry {child : Node} {e : Name × Node} (h : e ∈ putEntry name child entries) :
    e ∈ entries ∨ e = (name, child) := by
  cases hname : entries.lookup name with
  | some old =>
    rw [putEntry_of_isSome (by simp [hname])] at h
    obtain ⟨before, hbefore, rfl⟩ := List.mem_map.mp h
    unfold changeEntry
    split
    · rename_i hkey
      exact Or.inr (by rw [hkey])
    · exact Or.inl hbefore
  | none =>
    rw [putEntry_of_eq_none hname] at h
    rcases List.mem_append.mp h with h | h
    · exact Or.inl h
    · exact Or.inr (List.mem_singleton.mp h)

theorem nodup_keys_putEntry {child : Node} (h : (entries.map (·.1)).Nodup) :
    ((putEntry name child entries).map (·.1)).Nodup := by
  cases hname : entries.lookup name with
  | some old => rwa [putEntry_of_isSome (by simp [hname]), keys_map_changeEntry]
  | none =>
    have hfresh : name ∉ entries.map (·.1) := by
      intro hm
      obtain ⟨e, he, hkey⟩ := List.mem_map.mp hm
      exact ne_of_lookup_eq_none hname e he hkey
    rw [putEntry_of_eq_none hname, List.map_append]
    exact List.nodup_append.mpr ⟨h, by simp, by
      intro a ha b hb
      obtain rfl : b = name := by simpa using hb
      exact fun he => hfresh (he ▸ ha)⟩

end Node

end Listings

namespace Node

theorem modifyAt_cons (f : Node → Node) (name : Name) (rest : Place) (mode : Nat)
    (entries : List (Name × Node)) :
    modifyAt f (name :: rest) (.directory mode entries) =
      .directory mode (entries.map (changeEntry (modifyAt f rest) name)) := by
  rw [modifyAt]
  rfl

theorem at?_modifyAt_above (f : Node → Node) (n : Node) (place rest : Place) :
    (modifyAt f (place ++ rest) n).at? place = (n.at? place).map (modifyAt f rest) := by
  induction place generalizing n with
  | nil => rfl
  | cons name place ih =>
    cases n with
    | directory mode entries =>
      rw [List.cons_append, modifyAt_cons]
      simp only [at?, lookup_map_changeEntry, if_true]
      cases entries.lookup name with
      | none => rfl
      | some child => exact ih child
    | file mode data => rfl
    | symlink target => rfl
    | socket mode => rfl

theorem at?_modifyAt_append (f : Node → Node) (n : Node) (place rest : Place) :
    (modifyAt f place n).at? (place ++ rest) = ((n.at? place).map f).bind (at? rest) := by
  have hplace := at?_modifyAt_above f n place []
  rw [List.append_nil] at hplace
  rw [at?_append, hplace]
  rfl

/-- Two changes at one place, one after the other. -/
theorem modifyAt_modifyAt (f g : Node → Node) (place : Place) (n : Node) :
    modifyAt g place (modifyAt f place n) = modifyAt (g ∘ f) place n := by
  induction place generalizing n with
  | nil => rfl
  | cons name place ih =>
    cases n with
    | directory mode entries =>
      rw [modifyAt_cons, modifyAt_cons, modifyAt_cons, List.map_map]
      congr 2
      funext e
      by_cases he : e.1 = name
      · simp [changeEntry, he, ih]
      · simp [changeEntry, he]
    | file mode data => rfl
    | symlink target => rfl
    | socket mode => rfl

theorem modifyAt_eq_self {f : Node → Node} {n m : Node} {place : Place} (hn : n.Sound)
    (hm : n.at? place = some m) (hf : f m = m) : modifyAt f place n = n := by
  induction place generalizing n with
  | nil =>
    obtain rfl := Option.some.inj hm
    exact hf
  | cons name place ih =>
    cases n with
    | directory mode entries =>
      simp only [at?, Option.bind_eq_some_iff] at hm
      obtain ⟨child, hchild, hrest⟩ := hm
      have hkeep : ∀ e ∈ entries, changeEntry (modifyAt f place) name e = e := by
        intro e he
        unfold changeEntry
        split
        · rename_i hkey
          -- A name stands in a directory once, so this is the entry that leads to the place.
          have hfound : entries.lookup e.1 = some e.2 := lookup_of_mem hn.once he
          rw [hkey, hchild] at hfound
          obtain rfl := Option.some.inj hfound
          rw [ih (hn.children e he) hrest]
        · rfl
      rw [modifyAt_cons, List.map_congr_left hkeep, List.map_id']
    | file mode data => rfl
    | symlink target => rfl
    | socket mode => rfl

theorem Sound.modifyAt {f : Node → Node} (hf : ∀ m : Node, m.Sound → (f m).Sound) {n : Node}
    (hn : n.Sound) (place : Place) : (Node.modifyAt f place n).Sound := by
  induction place generalizing n with
  | nil => exact hf n hn
  | cons name place ih =>
    cases n with
    | directory mode entries =>
      rw [modifyAt_cons]
      refine .directory _ _ ?_ ?_ ?_
      · rw [keys_map_changeEntry]
        exact hn.once
      · intro e he
        obtain ⟨before, hbefore, rfl⟩ := List.mem_map.mp he
        rw [changeEntry_key]
        exact hn.names before hbefore
      · intro e he
        obtain ⟨before, hbefore, rfl⟩ := List.mem_map.mp he
        unfold changeEntry
        split
        · exact ih (hn.children before hbefore)
        · exact hn.children before hbefore
    | file mode data => exact hn
    | symlink target => exact hn
    | socket mode => exact hn

theorem Sound.put {n child : Node} (hn : n.Sound) (hchild : child.Sound) {name : Name}
    (hname : Path.EntryName name) (place : Place) : (n.put place name child).Sound := by
  apply hn.modifyAt
  intro m hm
  cases m with
  | directory mode entries =>
    refine .directory _ _ (nodup_keys_putEntry hm.once) ?_ ?_
    · intro e he
      rcases mem_putEntry he with he | rfl
      · exact hm.names e he
      · exact hname
    · intro e he
      rcases mem_putEntry he with he | rfl
      · exact hm.children e he
      · exact hchild
  | file mode data => exact hm
  | symlink target => exact hm
  | socket mode => exact hm

theorem Sound.drop {n : Node} (hn : n.Sound) (place : Place) (name : Name) :
    (n.drop place name).Sound := by
  apply hn.modifyAt
  intro m hm
  cases m with
  | directory mode entries =>
    have hkeep : (dropEntry name entries).Sublist entries := List.filter_sublist
    exact .directory _ _ (hm.once.sublist (hkeep.map _)) (fun e he => hm.names e (hkeep.subset he))
      (fun e he => hm.children e (hkeep.subset he))
  | file mode data => exact hm
  | symlink target => exact hm
  | socket mode => exact hm

/-- What a node is by itself, without the entries of a directory. -/
def own : Node → Node
  | directory mode _ => directory mode []
  | n => n

theorem own_eq_directory {n : Node} {mode : Nat} (h : n.own = .directory mode []) :
    ∃ entries, n = .directory mode entries := by
  cases n with
  | directory m entries =>
    obtain ⟨rfl, _⟩ := Node.directory.inj h
    exact ⟨entries, rfl⟩
  | file m data => cases h
  | symlink target => cases h
  | socket m => cases h

theorem own_eq_symlink {n : Node} {target : Path} (h : n.own = .symlink target) :
    n = .symlink target := by
  cases n with
  | directory mode entries => cases h
  | file mode data => cases h
  | symlink other => exact h
  | socket mode => cases h

theorem isSymlink_own (n : Node) : n.own.isSymlink = n.isSymlink := by
  cases n <;> rfl

theorem isDirectory_own (n : Node) : n.own.isDirectory = n.isDirectory := by
  cases n <;> rfl

/-- Trees that differ in one entry at most: at every place but there and below, the same kind of
node stands in both, with the same mode, contents or target, or nothing in either. -/
def SameBut (entry : Place) (n m : Node) : Prop :=
  ∀ place, ¬ entry <+: place → (n.at? place).map own = (m.at? place).map own

theorem SameBut.symm {entry : Place} {n m : Node} (h : SameBut entry n m) : SameBut entry m n :=
  fun place hp => (h place hp).symm

theorem own_at?_modifyAt (f : Node → Node) (n : Node) {place other : Place}
    (h : ¬ place <+: other) :
    ((modifyAt f place n).at? other).map own = (n.at? other).map own := by
  induction place generalizing n other with
  | nil => exact absurd List.nil_prefix h
  | cons name place ih =>
    cases n with
    | directory mode entries =>
      rw [modifyAt_cons]
      cases other with
      | nil => rfl
      | cons key other =>
        simp only [at?, lookup_map_changeEntry]
        by_cases hkey : key = name
        · subst hkey
          rw [if_pos rfl]
          cases entries.lookup key with
          | none => rfl
          | some child => exact ih child (fun hp => h (List.cons_prefix_cons.mpr ⟨rfl, hp⟩))
        · rw [if_neg hkey]
    | file mode data => rfl
    | symlink target => rfl
    | socket mode => rfl

theorem sameBut_mapEntries {f : List (Name × Node) → List (Name × Node)} {name : Name}
    (hf : ∀ entries key, key ≠ name → (f entries).lookup key = entries.lookup key) (n : Node)
    (place : Place) : SameBut (place ++ [name]) (n.modifyAt (mapEntries f) place) n := by
  intro other hother
  by_cases hp : place <+: other
  · obtain ⟨rest, rfl⟩ := hp
    rw [at?_modifyAt_append, at?_append]
    cases n.at? place with
    | none => rfl
    | some m =>
      cases m with
      | directory mode entries =>
        cases rest with
        | nil => rfl
        | cons key rest =>
          have hkey : key ≠ name := by
            intro he
            apply hother
            rw [he]
            exact List.prefix_append_right_inj _ |>.mpr (by simp)
          simp [mapEntries, at?, hf entries key hkey]
      | file mode data => rfl
      | symlink target => rfl
      | socket mode => rfl
  · exact own_at?_modifyAt _ n hp

theorem sameBut_put (n : Node) (place : Place) (name : Name) (child : Node) :
    SameBut (place ++ [name]) (n.put place name child) n :=
  sameBut_mapEntries (fun _ _ hkey => by rw [lookup_putEntry, if_neg hkey]) n place

theorem sameBut_drop (n : Node) (place : Place) (name : Name) :
    SameBut (place ++ [name]) (n.drop place name) n :=
  sameBut_mapEntries (fun _ _ hkey => by rw [lookup_dropEntry, if_neg hkey]) n place

theorem isDirectory_drop (n : Node) (place : Place) (name : Name) :
    (n.drop place name).isDirectory = n.isDirectory := by
  have hown := sameBut_drop n place name [] (by simp)
  rw [← isDirectory_own, Option.some.inj hown, isDirectory_own]

/-- Nothing is left of an entry that is taken out, nor of what stood below it. -/
theorem at?_drop_below (n : Node) (place : Place) (name : Name) (rest : Place) :
    (n.drop place name).at? (place ++ [name] ++ rest) = none := by
  rw [drop, List.append_assoc, at?_modifyAt_append]
  cases n.at? place with
  | none => rfl
  | some m =>
    cases m with
    | directory mode entries => simp [mapEntries, at?, lookup_dropEntry]
    | file mode data => rfl
    | symlink target => rfl
    | socket mode => rfl

section Put

variable {n : Node} {place : Place} {mode : Nat} {entries : List (Name × Node)}
  (h : n.at? place = some (.directory mode entries))
include h

theorem at?_put (name : Name) (child : Node) :
    (n.put place name child).at? (place ++ [name]) = some child := by
  rw [put, at?_modifyAt_append, h]
  simp [mapEntries, at?, lookup_putEntry]

/-- A name that was free is free again, and nothing else has become of the tree. -/
theorem drop_put (hn : n.Sound) {name : Name} (hname : entries.lookup name = none) (child : Node) :
    (n.put place name child).drop place name = n := by
  rw [put, drop, modifyAt_modifyAt]
  apply modifyAt_eq_self hn h
  simp [mapEntries, dropEntry_putEntry child hname]

end Put

end Node

end Marginalia
