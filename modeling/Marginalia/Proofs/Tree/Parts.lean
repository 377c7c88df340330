import Marginalia.Proofs.Tree.Entries
import Marginalia.Proofs.Tree.Reordered
/-!
Trees that are parts of others: what stands in them stands in the whole, and a walk through them is
one through the whole.
-/

namespace Marginalia

namespace Node

/-- What stands in both of two trees is the same, with the same mode, contents or target, and stands
in a third one as well. -/
def Meets (n m both : Node) : Prop :=
  ∀ place a b, n.at? place = some a → m.at? place = some b →
    a.own = b.own ∧ (both.at? place).map own = some a.own

/-- All that stands in one tree stands in the other as well. -/
def Part (n m : Node) : Prop :=
  ∀ place k, n.at? place = some k → (m.at? place).map own = some k.own

theorem Part.meets {n m : Node} (h : n.Part m) : Meets n n m := by
  intro place a b ha hb
  obtain rfl := Option.some.inj (ha.symm.trans hb)
  exact ⟨rfl, h place a ha⟩

theorem Meets.symm {n m both : Node} (h : Meets n m both) : Meets m n both := by
  intro place b a hb ha
  obtain ⟨hown, hboth⟩ := h place a b ha hb
  exact ⟨hown.symm, hown ▸ hboth⟩

end Node

namespace Walk

section Meeting

variable {n m both : Node} (h : Node.Meets n m both)
include h

/-- A directory that is met in two trees is met in the third, and so is what both have in it. -/
theorem directory_meets {place : Place} {mode mode' : Nat} {entries others : List (Name × Node)}
    (hn : n.at? place = some (.directory mode entries))
    (hm : m.at? place = some (.directory mode' others)) :
    mode' = mode ∧ ∃ es, both.at? place = some (.directory mode es) ∧
      ∀ key a b, entries.lookup key = some a → others.lookup key = some b →
        a.own = b.own ∧ (es.lookup key).map Node.own = some a.own := by
  obtain ⟨hown, hboth⟩ := h place _ _ hn hm
  obtain ⟨k, hk, hdirectory⟩ := Option.map_eq_some_iff.mp hboth
  obtain ⟨es, rfl⟩ := Node.own_eq_directory hdirectory
  refine ⟨(Node.directory.inj hown).1.symm, es, hk, ?_⟩
  intro key a b ha hb
  have hchild := h (place ++ [key]) a b
    ((Node.at?_concat_of_directory hn key).trans ha)
    ((Node.at?_concat_of_directory hm key).trans hb)
  rwa [Node.at?_concat_of_directory hk] at hchild

theorem enter_meets {place : Place} {mode mode' : Nat} {entries others : List (Name × Node)}
    {key : Name} {a b : Node} (hn : n.at? place = some (.directory mode entries))
    (hm : m.at? place = some (.directory mode' others)) (ha : enter mode entries key = .ok a)
    (hb : enter mode' others key = .ok b) :
    a.own = b.own ∧ ∃ es c, both.at? place = some (.directory mode es) ∧
      enter mode es key = .ok c ∧ c.own = a.own := by
  obtain ⟨_, es, hboth, hmeet⟩ := directory_meets h hn hm
  obtain ⟨hsearch, hlength, hfirst⟩ := enter_eq_ok_iff.mp ha
  obtain ⟨_, _, hsecond⟩ := enter_eq_ok_iff.mp hb
  obtain ⟨hown, hthird⟩ := hmeet key a b hfirst hsecond
  obtain ⟨c, hc, hsame⟩ := Option.map_eq_some_iff.mp hthird
  exact ⟨hown, es, c, hboth, enter_eq_ok_iff.mpr ⟨hsearch, hlength, hc⟩, hsame⟩

/-- A walk that can be made in two trees can be made in the third. -/
theorem Leads.meets {i j : Nat} {start stop stop' : Place} {segments : List Bytes}
    (hn : Leads n i start segments stop) (hm : Leads m j start segments stop') :
    Leads both i start segments stop := by
  -- Both walks take the same kind of step, since what they meet under a name is the same.
  induction hn generalizing j stop' with
  | done start => exact .done start
  | mark here marked further ih =>
    obtain ⟨_, _, here', hstep⟩ := hm.first_step
    obtain ⟨rfl, _, hboth, _⟩ := directory_meets h here here'
    rcases hstep with ⟨_, marked', further'⟩ | ⟨unmarked', _⟩
    · obtain rfl := Except.ok.inj (Option.some.inj (marked.symm.trans marked'))
      exact .mark hboth marked (ih further')
    · cases marked.symm.trans unmarked'
  | name here unmarked found unlinked further ih =>
    obtain ⟨_, _, here', hstep⟩ := hm.first_step
    obtain ⟨rfl, _⟩ := directory_meets h here here'
    rcases hstep with ⟨_, marked', _⟩ | ⟨_, b, found', hon⟩
    · cases unmarked.symm.trans marked'
    · obtain ⟨hown, _, c, hboth, hentry, hsame⟩ := enter_meets h here here' found found'
      rcases hon with ⟨_, further'⟩ | ⟨target, _, rfl, _⟩
      · refine .name hboth unmarked hentry ?_ (ih further')
        rw [← Node.isSymlink_own, hsame, Node.isSymlink_own, unlinked]
      · rw [Node.own_eq_symlink hown] at unlinked
        cases unlinked
  | link here unmarked found further ih =>
    obtain ⟨_, _, here', hstep⟩ := hm.first_step
    obtain ⟨rfl, _⟩ := directory_meets h here here'
    rcases hstep with ⟨_, marked', _⟩ | ⟨_, b, found', hon⟩
    · cases unmarked.symm.trans marked'
    · obtain ⟨hown, _, c, hboth, hentry, hsame⟩ := enter_meets h here here' found found'
      obtain rfl := Node.own_eq_symlink hown.symm
      obtain rfl := Node.own_eq_symlink hsame
      rcases hon with ⟨hplain, _⟩ | ⟨target, _, htarget, further'⟩
      · cases hplain
      · obtain rfl := Node.symlink.inj htarget
        exact .link hboth unmarked hentry (ih further')

end Meeting

/-- A walk through a part of a tree is one through the whole of it. -/
theorem Leads.of_part {n m : Node} (h : n.Part m) {links : Nat} {start stop : Place}
    {segments : List Bytes} (hn : Leads n links start segments stop) :
    Leads m links start segments stop := hn.meets h.meets hn

end Walk

namespace Node

theorem lookup_cutEntries (room : Nat) (entries : List (Name × Node)) (name : Name) :
    (cutEntries room entries).lookup name =
      if name.length + 1 < room then
        (entries.lookup name).map (cut (room - (name.length + 1)))
      else none := by
  induction entries with
  | nil => simp [cutEntries]
  | cons entry rest ih =>
    obtain ⟨key, n⟩ := entry
    rw [cutEntries, cutEntry]
    by_cases hkey : name = key
    · subst hkey
      by_cases hroom : name.length + 1 < room
      · simp [hroom]
      · rw [if_neg hroom, if_neg hroom, List.nil_append, ih, if_neg hroom]
    · have hne : (name == key) = false := by simpa using hkey
      rw [List.lookup_cons, hne, ← ih]
      split
      · simp [List.lookup_cons, hne]
      · rfl

theorem part_drop (n : Node) (place : Place) (name : Name) : (n.drop place name).Part n := by
  intro other k hk
  by_cases hbelow : place ++ [name] <+: other
  · obtain ⟨rest, rfl⟩ := hbelow
    rw [at?_drop_below] at hk
    cases hk
  · rw [← sameBut_drop n place name other hbelow, hk, Option.map_some]

/-- The bytes that a place takes in a path. -/
def span (place : Place) : Nat := (place.flatMap (Path.slash :: ·)).length

theorem span_cons (name : Name) (place : Place) :
    span (name :: place) = name.length + 1 + span place := by
  simp only [span, List.flatMap_cons, List.length_append, List.length_cons]

/-- A place is cut off just if its path has not enough room. -/
theorem at?_cut (n : Node) (room : Nat) (place : Place) :
    (n.cut room).at? place =
      if place = [] ∨ span place < room then (n.at? place).map (cut (room - span place))
      else none := by
  induction place generalizing n room with
  | nil => simp [at?, span]
  | cons name place ih =>
    cases n with
    | directory mode entries =>
      have hshort : (name :: place = [] ∨ span (name :: place) < room) ↔
          name.length + 1 < room ∧ (place = [] ∨ span place < room - (name.length + 1)) := by
        rw [span_cons]
        constructor
        · rintro (hnil | hlt)
          · cases hnil
          · exact ⟨by omega, Or.inr (by omega)⟩
        · intro h
          obtain ⟨hname, rfl | hlt⟩ := h
          · exact Or.inr hname
          · exact Or.inr (by omega)
      have hroom : room - span (name :: place) = room - (name.length + 1) - span place := by
        rw [span_cons]
        omega
      simp only [cut, at?, lookup_cutEntries, hshort, hroom]
      by_cases hname : name.length + 1 < room
      · cases entries.lookup name <;> simp [hname, ih]
      · simp [hname]
    | file mode data => simp [cut, at?]
    | symlink target => simp [cut, at?]
    | socket mode => simp [cut, at?]

theorem own_cut (room : Nat) (n : Node) : (n.cut room).own = n.own := by
  cases n <;> rfl

theorem part_cut (n : Node) (room : Nat) : (n.cut room).Part n := by
  intro place k hk
  rw [at?_cut] at hk
  split at hk
  · obtain ⟨m, hm, rfl⟩ := Option.map_eq_some_iff.mp hk
    rw [hm, Option.map_some, own_cut]
  · cases hk

/-- What stands near in a tree and stands in a part of it is near there too. -/
theorem Part.meets_cut {n m : Node} (h : n.Part m) (room : Nat) :
    Meets (m.cut room) n (n.cut room) := by
  intro place a b ha hb
  rw [at?_cut] at ha
  split at ha
  · rename_i hshort
    obtain ⟨k, hk, rfl⟩ := Option.map_eq_some_iff.mp ha
    have hown := h place b hb
    rw [hk, Option.map_some, Option.some.injEq] at hown
    rw [own_cut, at?_cut, if_pos hshort, hb, Option.map_some, Option.map_some, own_cut]
    exact ⟨hown, congrArg some hown.symm⟩
  · cases ha

theorem Part.cut {n m : Node} (h : n.Part m) (room : Nat) : (n.cut room).Part (m.cut room) := by
  intro place a ha
  rw [at?_cut] at ha
  split at ha
  · rename_i hshort
    obtain ⟨k, hk, rfl⟩ := Option.map_eq_some_iff.mp ha
    obtain ⟨j, hj, hown⟩ := Option.map_eq_some_iff.mp (h place k hk)
    rw [at?_cut, if_pos hshort, hj, Option.map_some, Option.map_some, own_cut, own_cut, hown]
  · cases ha

/-- The way to what stands in a part is as free there as in the whole. -/
theorem Part.mayPass_eq {n m : Node} (h : n.Part m) {place : Place} {k : Node}
    (hk : n.at? place = some k) : n.mayPass place = m.mayPass place := by
  induction place using List.reverseRecOn generalizing k with
  | nil => rw [mayPass, mayPass]
  | append_singleton place name ih =>
    obtain ⟨mode, entries, hdirectory, hname⟩ := at?_concat_eq_some_iff.mp hk
    obtain ⟨j, hj, hown⟩ := Option.map_eq_some_iff.mp (h place _ hdirectory)
    obtain ⟨others, rfl⟩ := own_eq_directory hown
    have hother := h _ _ hk
    rw [at?_concat_of_directory hj] at hother
    obtain ⟨child, hchild, _⟩ := Option.map_eq_some_iff.mp hother
    rw [mayPass_concat hdirectory (by rw [hname]; rfl), mayPass_concat hj (by rw [hchild]; rfl),
      ih hdirectory]

end Node

end Marginalia
