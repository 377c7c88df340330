import Marginalia.Proofs.Tree.Entries
import Marginalia.Proofs.Tree.Walking
/-!
Entries that no walk comes through to a directory: files, sockets, what is not there, and links to
such. Trees that differ in a dead end only let all walks to directories take the same way.
-/

namespace Marginalia

namespace Walk

/-- An entry that no walk comes through to a directory. -/
structure DeadEnd (top : Node) (place : Place) (name : Name) : Prop where
  flat : ∀ n, top.at? (place ++ [name]) = some n → n.isDirectory = false
  blocked : ∀ links rest stop mode entries, top.at? stop = some (.directory mode entries) →
    ¬ Leads top links place (name :: rest) stop

section DeadEnd

variable {top : Node} {place : Place} {name : Name} (hname : IsName name)
include hname

/-- A walk that goes on under a name finds the entry, and goes on from there or along its link. -/
theorem Leads.cons_entry {links : Nat} {rest : List Bytes} {stop : Place}
    (h : Leads top links place (name :: rest) stop) :
    ∃ n, top.at? (place ++ [name]) = some n ∧
      ((n.isSymlink = false ∧ Leads top links (place ++ [name]) rest stop) ∨
        ∃ target i, n = .symlink target ∧
          Leads top i (origin target place) (target.segments ++ rest) stop) := by
  obtain ⟨_, _, here, hstep⟩ := h.first_step
  rcases hstep with ⟨_, marked, _⟩ | ⟨_, n, found, hon⟩
  · rw [hname.mark?] at marked
    cases marked
  · obtain ⟨_, _, hlookup⟩ := enter_eq_ok_iff.mp found
    exact ⟨n, (Node.at?_concat_of_directory here name).trans hlookup, hon⟩

theorem deadEnd_of_plain (h : ∀ n, top.at? (place ++ [name]) = some n →
    n.isDirectory = false ∧ n.isSymlink = false) : DeadEnd top place name := by
  refine ⟨fun n hn => (h n hn).1, ?_⟩
  intro links rest stop mode entries hstop hleads
  obtain ⟨n, hn, ⟨_, hrest⟩ | ⟨target, i, rfl, _⟩⟩ := hleads.cons_entry hname
  · obtain ⟨_, rfl⟩ := hrest.eq_of_not_directory (fun m hm => (h m hm).1)
    cases (h _ hstop).1
  · cases (h _ hn).2

/-- Of the links, those are dead ends that do not lead to a directory themselves. -/
theorem deadEnd_of_link {target : Path} (hlink : top.at? (place ++ [name]) = some (.symlink target))
    {i : Nat} {last : Place}
    (htarget : Leads top i (origin target place) target.segments last)
    (hlast : ∀ n, top.at? last = some n → n.isDirectory = false) : DeadEnd top place name := by
  refine ⟨?_, ?_⟩
  · intro n hn
    obtain rfl := Option.some.inj (hlink.symm.trans hn)
    rfl
  · intro links rest stop mode entries hstop hleads
    obtain ⟨n, hn, hon⟩ := hleads.cons_entry hname
    obtain rfl := Option.some.inj (hlink.symm.trans hn)
    obtain ⟨hplain, _⟩ | ⟨other, j, he, hfurther⟩ := hon
    · cases hplain
    · obtain rfl := Node.symlink.inj he
      obtain ⟨mid, _, _, _, hfirst, hsecond⟩ := hfurther.split
      obtain rfl := hfirst.functional htarget
      obtain ⟨_, rfl⟩ := hsecond.eq_of_not_directory hlast
      cases hlast _ hstop

end DeadEnd

section SameBut

variable {n m : Node} {place : Place} {name : Name} (h : Node.SameBut (place ++ [name]) n m)
  (hdead : DeadEnd n place name)
include h hdead

/-- A directory that is met in one tree is met in the other, and so is what stands in it. -/
theorem directory_sameBut {other : Place} {mode : Nat} {entries : List (Name × Node)}
    (hother : n.at? other = some (.directory mode entries)) :
    ∃ others, m.at? other = some (.directory mode others) ∧
      ∀ key, other ++ [key] ≠ place ++ [name] →
        (entries.lookup key).map Node.own = (others.lookup key).map Node.own := by
  have hoff := Node.not_prefix_of_not_directory hdead.flat hother
  have hown := h other hoff
  rw [hother, Option.map_some, eq_comm, Option.map_eq_some_iff] at hown
  obtain ⟨k, hk, hdirectory⟩ := hown
  obtain ⟨others, rfl⟩ := Node.own_eq_directory hdirectory
  refine ⟨others, hk, ?_⟩
  intro key hkey
  have hne : ¬ place ++ [name] <+: other ++ [key] := by
    intro hp
    rcases List.prefix_concat_iff.mp hp with he | hp
    · exact hkey he.symm
    · exact hoff hp
  have hchild := h (other ++ [key]) hne
  rwa [Node.at?_concat_of_directory hother, Node.at?_concat_of_directory hk] at hchild

/-- A step that does not come to the entry is the same in both trees. -/
theorem enter_sameBut {other : Place} {mode : Nat} {entries : List (Name × Node)} {key : Name}
    {found : Node} (hother : n.at? other = some (.directory mode entries))
    (hkey : other ++ [key] ≠ place ++ [name]) (hfound : enter mode entries key = .ok found) :
    ∃ others k, m.at? other = some (.directory mode others) ∧
      enter mode others key = .ok k ∧ k.own = found.own := by
  obtain ⟨others, hsecond, hsame⟩ := directory_sameBut h hdead hother
  obtain ⟨hsearch, hlength, hlookup⟩ := enter_eq_ok_iff.mp hfound
  have hown := hsame key hkey
  rw [hlookup, Option.map_some, eq_comm, Option.map_eq_some_iff] at hown
  obtain ⟨k, hl, hown⟩ := hown
  exact ⟨others, k, hsecond, enter_eq_ok_iff.mpr ⟨hsearch, hlength, hl⟩, hown⟩

omit h in
theorem DeadEnd.child_ne {stop : Place} {mode : Nat} {entries : List (Name × Node)}
    (hstop : n.at? stop = some (.directory mode entries)) {links : Nat} {other : Place}
    {key : Name} {rest : List Bytes} (hw : Leads n links other (key :: rest) stop) :
    other ++ [key] ≠ place ++ [name] := by
  intro he
  obtain ⟨rfl, hlast⟩ := List.append_inj' he rfl
  obtain rfl := List.head_eq_of_cons_eq hlast
  exact hdead.blocked _ _ _ _ _ hstop hw

/-- The walks to a directory are the same in both trees. -/
theorem Leads.sameBut {stop : Place} {mode : Nat} {entries : List (Name × Node)}
    (hstop : n.at? stop = some (.directory mode entries)) {links : Nat} {start : Place}
    {segments : List Bytes} (hw : Leads n links start segments stop) :
    Leads m links start segments stop := by
  induction hw with
  | done start => exact .done start
  | mark here marked further ih =>
    obtain ⟨others, hother, _⟩ := directory_sameBut h hdead here
    exact .mark hother marked (ih hstop)
  | name here unmarked found unlinked further ih =>
    have hoff := hdead.child_ne hstop (.name here unmarked found unlinked further)
    obtain ⟨others, other, hother, hentry, hown⟩ := enter_sameBut h hdead here hoff found
    refine .name hother unmarked hentry ?_ (ih hstop)
    rw [← Node.isSymlink_own, hown, Node.isSymlink_own, unlinked]
  | link here unmarked found further ih =>
    have hoff := hdead.child_ne hstop (.link here unmarked found further)
    obtain ⟨others, other, hother, hentry, hown⟩ := enter_sameBut h hdead here hoff found
    obtain rfl := Node.own_eq_symlink hown
    exact .link hother unmarked hentry (ih hstop)

end SameBut

end Walk

end Marginalia
