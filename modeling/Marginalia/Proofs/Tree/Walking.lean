import Marginalia.Proofs.Results
import Marginalia.Proofs.Tree.Places
/-!
A walk told step by step, apart from how many links it may follow: where it leads, how one walk goes
on from where another ended, and that there is one end only.
-/

namespace Marginalia

namespace Walk

theorem enter_eq_ok_iff {mode : Nat} {entries : List (Name × Node)} {name : Name} {n : Node} :
    enter mode entries name = .ok n ↔
      Mode.maySearch mode = true ∧ name.length ≤ nameLimit ∧ entries.lookup name = some n := by
  unfold enter
  cases hsearch : Mode.maySearch mode with
  | false => simp
  | true =>
    by_cases hlength : name.length > nameLimit
    · have hnot : ¬ name.length ≤ nameLimit := Nat.not_le.mpr hlength
      simp [hlength, hnot]
    · have hle : name.length ≤ nameLimit := Nat.not_lt.mp hlength
      cases hl : entries.lookup name <;> simp [hlength, hle]

/-- Where a segment leads that is no name: nowhere else, or to the directory above. -/
def mark? (mode : Nat) (start : Place) (segment : Bytes) : Option (Except SystemError Place) :=
  if segment = [] then some (.ok start)
  else if segment = Path.current ∨ segment = Path.parentName then
    if !Mode.maySearch mode then some (.error .denied)
    else if segment = Path.current then some (.ok start)
    else some (.ok (above start))
  else none

/-- An idle segment leads nowhere else, and can only be refused. -/
theorem mark?_of_isIdle {segment : Bytes} (h : Path.isIdle segment = true) (mode : Nat)
    (start : Place) :
    mark? mode start segment = some (.ok start) ∨
      mark? mode start segment = some (.error .denied) := by
  have hdots : segment = [] ∨ segment = Path.current := by simpa [Path.isIdle] using h
  rcases hdots with rfl | rfl
  · exact Or.inl rfl
  · cases hsearch : Mode.maySearch mode <;> simp [mark?, hsearch, Path.current]

theorem mark?_parentName (mode : Nat) (start : Place) :
    mark? mode start Path.parentName = some (.ok (above start)) ∨
      mark? mode start Path.parentName = some (.error .denied) := by
  have hother : ¬ (Path.parentName = [] ∨ Path.parentName = Path.current) := by decide
  cases hsearch : Mode.maySearch mode with
  | false => simp [mark?, hsearch, not_or.mp hother]
  | true => simp [mark?, hsearch, not_or.mp hother]

/-- A segment that a walk looks up. -/
structure IsName (segment : Bytes) : Prop where
  ne_nil : segment ≠ []
  ne_current : segment ≠ Path.current
  ne_parentName : segment ≠ Path.parentName

theorem isName_of_entryName {name : Name} (h : Path.EntryName name) : IsName name :=
  ⟨h.ne_nil, h.ne_current, h.ne_parentName⟩

theorem IsName.mark? {segment : Bytes} (h : IsName segment) (mode : Nat) (start : Place) :
    Walk.mark? mode start segment = none := by
  simp [Walk.mark?, h.ne_nil, h.ne_current, h.ne_parentName]

/-- How a walk goes on that has met a node under a name. -/
def onward (top : Node) (jump : Jump) (start : Place) (name : Name) (rest : List Bytes) :
    Node → Except SystemError Place
  | .symlink target => jump start target rest
  | _ => along top jump (start ++ [name]) rest

theorem onward_of_not_link {top n : Node} (h : n.isSymlink = false) (jump : Jump) (start : Place)
    (name : Name) (rest : List Bytes) :
    onward top jump start name rest n = along top jump (start ++ [name]) rest := by
  cases n with
  | symlink target => cases h
  | file mode data => rfl
  | directory mode entries => rfl
  | socket mode => rfl

/-- A walk over one segment from a directory. -/
theorem along_directory {top : Node} {start : Place} {mode : Nat} {entries : List (Name × Node)}
    (h : top.at? start = some (.directory mode entries)) (jump : Jump) (segment : Bytes)
    (rest : List Bytes) :
    along top jump start (segment :: rest) =
      match mark? mode start segment with
      | some next => next.bind fun s => along top jump s rest
      | none => (enter mode entries segment).bind (onward top jump start segment rest) := by
  rw [along, h]
  unfold mark?
  dsimp only
  by_cases hidle : segment = []
  · rw [if_pos hidle, if_pos hidle]
    rfl
  · rw [if_neg hidle, if_neg hidle]
    by_cases hdots : segment = Path.current ∨ segment = Path.parentName
    · rw [if_pos hdots, if_pos hdots]
      cases Mode.maySearch mode with
      | false => rfl
      | true =>
        by_cases hcurrent : segment = Path.current
        · simp [hcurrent, Except.bind]
        · simp [hcurrent, Except.bind]
    · rw [if_neg hdots, if_neg hdots]
      cases hentry : enter mode entries segment with
      | error e => rfl
      | ok found => cases found <;> rfl

/-- Only directories are walked over. -/
theorem exists_directory_of_along {top : Node} {start stop : Place}
    {jump : Jump} {segment : Bytes}
    {rest : List Bytes} (h : along top jump start (segment :: rest) = .ok stop) :
    ∃ mode entries, top.at? start = some (.directory mode entries) := by
  rw [along] at h
  split at h
  · exact ⟨_, _, ‹_›⟩
  · cases h

/-- A walk from a start along segments leads to `stop`, with so many links followed. -/
inductive Leads (top : Node) : Nat → Place → List Bytes → Place → Prop
  | done (start : Place) : Leads top 0 start [] start
  | mark {links mode : Nat} {start next stop : Place} {segment : Bytes} {rest : List Bytes}
      {entries : List (Name × Node)} (here : top.at? start = some (.directory mode entries))
      (marked : mark? mode start segment = some (.ok next))
      (further : Leads top links next rest stop) : Leads top links start (segment :: rest) stop
  | name {links mode : Nat} {start stop : Place} {segment : Bytes} {rest : List Bytes}
      {entries : List (Name × Node)} {n : Node}
      (here : top.at? start = some (.directory mode entries))
      (unmarked : mark? mode start segment = none) (found : enter mode entries segment = .ok n)
      (unlinked : n.isSymlink = false) (further : Leads top links (start ++ [segment]) rest stop) :
      Leads top links start (segment :: rest) stop
  | link {links mode : Nat} {start stop : Place} {segment : Bytes} {rest : List Bytes}
      {entries : List (Name × Node)} {target : Path}
      (here : top.at? start = some (.directory mode entries))
      (unmarked : mark? mode start segment = none)
      (found : enter mode entries segment = .ok (.symlink target))
      (further : Leads top links (origin target start) (target.segments ++ rest) stop) :
      Leads top (links + 1) start (segment :: rest) stop

/-- The first step of a walk: over a mark, to an entry, or from an entry along its link. -/
theorem Leads.first_step {top : Node} {links : Nat} {start stop : Place} {segment : Bytes}
    {rest : List Bytes} (h : Leads top links start (segment :: rest) stop) :
    ∃ mode entries, top.at? start = some (.directory mode entries) ∧
      ((∃ next, mark? mode start segment = some (.ok next) ∧ Leads top links next rest stop) ∨
        mark? mode start segment = none ∧ ∃ n, enter mode entries segment = .ok n ∧
          ((n.isSymlink = false ∧ Leads top links (start ++ [segment]) rest stop) ∨
            ∃ target i, n = .symlink target ∧
              Leads top i (origin target start) (target.segments ++ rest) stop)) := by
  cases h with
  | mark here marked further => exact ⟨_, _, here, Or.inl ⟨_, marked, further⟩⟩
  | name here unmarked found unlinked further =>
    exact ⟨_, _, here, Or.inr ⟨unmarked, _, found, Or.inl ⟨unlinked, further⟩⟩⟩
  | link here unmarked found further =>
    exact ⟨_, _, here, Or.inr ⟨unmarked, _, found, Or.inr ⟨_, _, rfl, further⟩⟩⟩

/-- A mark only leads where it leads, if it is not refused. -/
theorem Leads.after_mark {top : Node} {links : Nat} {start next stop : Place} {segment : Bytes}
    {rest : List Bytes} (h : Leads top links start (segment :: rest) stop)
    (hmark : ∀ mode, mark? mode start segment = some (.ok next) ∨
      mark? mode start segment = some (.error .denied)) : Leads top links next rest stop := by
  obtain ⟨mode, _, _, ⟨other, hother, hfurther⟩ | ⟨hnone, _⟩⟩ := h.first_step
  · rcases hmark mode with hm | hm
    · obtain rfl := Except.ok.inj (Option.some.inj (hm.symm.trans hother))
      exact hfurther
    · cases hm.symm.trans hother
  · rcases hmark mode with hm | hm
    · cases hm.symm.trans hnone
    · cases hm.symm.trans hnone

theorem Leads.after_idle {top : Node} {links : Nat} {start stop : Place} {segment : Bytes}
    {rest : List Bytes} (h : Leads top links start (segment :: rest) stop)
    (hidle : Path.isIdle segment = true) : Leads top links start rest stop :=
  h.after_mark fun mode => mark?_of_isIdle hidle mode start

theorem leads_of_along {top : Node} {limit : Nat} {jump : Jump} {stop : Place}
    (hjump : ∀ s target left, jump s target left = .ok stop →
      ∃ links < limit, Leads top links (origin target s) (target.segments ++ left) stop)
    {start : Place} {segments : List Bytes} (h : along top jump start segments = .ok stop) :
    ∃ links ≤ limit, Leads top links start segments stop := by
  induction segments generalizing start with
  | nil =>
    obtain rfl : start = stop := Except.ok.inj h
    exact ⟨0, Nat.zero_le _, .done start⟩
  | cons segment rest ih =>
    obtain ⟨mode, entries, here⟩ := exists_directory_of_along h
    rw [along_directory here] at h
    cases hmark : mark? mode start segment with
    | some next =>
      rw [hmark] at h
      cases next with
      | error e => cases h
      | ok s =>
        obtain ⟨links, hlinks, further⟩ := ih h
        exact ⟨links, hlinks, .mark here hmark further⟩
    | none =>
      rw [hmark] at h
      obtain ⟨n, found, hon⟩ := bind_eq_ok_iff.mp h
      by_cases hlink : ∃ target, n = .symlink target
      · obtain ⟨target, rfl⟩ := hlink
        obtain ⟨links, hlinks, further⟩ := hjump _ _ _ hon
        exact ⟨links + 1, hlinks, .link here hmark found further⟩
      · have unlinked : n.isSymlink = false := by
          cases n with
          | symlink target => exact absurd ⟨target, rfl⟩ hlink
          | file fmode data => rfl
          | directory dmode es => rfl
          | socket smode => rfl
        rw [onward_of_not_link unlinked] at hon
        obtain ⟨links, hlinks, further⟩ := ih hon
        exact ⟨links, hlinks, .name here hmark found unlinked further⟩

theorem leads_of_within {top : Node} {limit : Nat} {start stop : Place} {segments : List Bytes}
    (h : within top limit start segments = .ok stop) :
    ∃ links ≤ limit, Leads top links start segments stop := by
  induction limit generalizing start segments with
  | zero => exact leads_of_along (fun _ _ _ hjump => by cases hjump) h
  | succ limit ih =>
    apply leads_of_along _ h
    intro s target left hjump
    obtain ⟨links, hlinks, further⟩ := ih hjump
    exact ⟨links, Nat.lt_succ_of_le hlinks, further⟩

theorem exists_jump (top : Node) (limit : Nat) : ∃ jump, within top limit = along top jump := by
  cases limit with
  | zero => exact ⟨_, rfl⟩
  | succ limit => exact ⟨_, rfl⟩

/-- A walk goes on from where its first segments lead, with as many links left as these have not
used up. -/
theorem Leads.within_append {top : Node} {links limit : Nat} {start stop : Place}
    {segments : List Bytes} (h : Leads top links start segments stop) (hlimit : links ≤ limit)
    (rest : List Bytes) :
    Walk.within top limit start (segments ++ rest) = Walk.within top (limit - links) stop rest := by
  obtain ⟨jump, hjump⟩ := exists_jump top limit
  induction h generalizing limit jump with
  | done start => rfl
  | mark here marked further ih =>
    rw [← ih hlimit jump hjump, hjump, List.cons_append, along_directory here, marked]
    rfl
  | name here unmarked found unlinked further ih =>
    rw [← ih hlimit jump hjump, hjump, List.cons_append, along_directory here, unmarked, found]
    exact onward_of_not_link unlinked _ _ _ _
  | link here unmarked found further ih =>
    cases limit with
    | zero => cases hlimit
    | succ limit =>
      obtain ⟨next, hnext⟩ := exists_jump top limit
      rw [Nat.add_sub_add_right, ← ih (Nat.le_of_succ_le_succ hlimit) next hnext,
        List.append_assoc, List.cons_append, Walk.within, along_directory here, unmarked, found]
      rfl

theorem Leads.within {top : Node} {links limit : Nat} {start stop : Place} {segments : List Bytes}
    (h : Leads top links start segments stop) (hlimit : links ≤ limit) :
    Walk.within top limit start segments = .ok stop := by
  obtain ⟨jump, hjump⟩ := exists_jump top (limit - links)
  have hall := h.within_append hlimit []
  rwa [List.append_nil, hjump] at hall

/-- A path is found just if some walk that follows few enough links leads there. -/
theorem within_eq_ok_iff {top : Node} {limit : Nat} {start stop : Place} {segments : List Bytes} :
    within top limit start segments = .ok stop ↔
      ∃ links ≤ limit, Leads top links start segments stop := by
  constructor
  · exact leads_of_within
  · intro h
    obtain ⟨links, hlinks, hleads⟩ := h
    exact hleads.within hlinks

namespace Leads

variable {top : Node} {i j : Nat} {start : Place} {segments rest : List Bytes}

theorem functional {first second : Place} (h : Leads top i start segments first)
    (h' : Leads top j start segments second) : first = second := by
  have hfirst := h.within (Nat.le_max_left i j)
  have hsecond := h'.within (Nat.le_max_right i j)
  exact Except.ok.inj (hfirst.symm.trans hsecond)

/-- A walk that can be made has one end. -/
theorem exists_leads_iff {limit : Nat} {stop other : Place} (h : Leads top i start segments stop)
    (hi : i ≤ limit) : (∃ links ≤ limit, Leads top links start segments other) ↔ other = stop := by
  constructor
  · intro hother
    obtain ⟨_, _, hleads⟩ := hother
    exact hleads.functional h
  · intro he
    exact ⟨i, hi, he ▸ h⟩

theorem append {mid stop : Place} (h : Leads top i start segments mid)
    (h' : Leads top j mid rest stop) : Leads top (i + j) start (segments ++ rest) stop := by
  induction h with
  | done start => rwa [Nat.zero_add]
  | mark here marked further ih => exact .mark here marked (ih h')
  | name here unmarked found unlinked further ih => exact .name here unmarked found unlinked (ih h')
  | link here unmarked found further ih =>
    have hfurther := ih h'
    rw [List.append_assoc] at hfurther
    rw [Nat.add_right_comm]
    exact .link here unmarked found hfurther

/-- A walk stops over where its first segments lead, and no link is followed twice for it. -/
theorem split {stop : Place} (h : Leads top i start (segments ++ rest) stop) :
    ∃ mid k l, k + l = i ∧ Leads top k start segments mid ∧ Leads top l mid rest stop := by
  generalize hall : segments ++ rest = all at h
  induction h generalizing segments with
  | done start =>
    obtain ⟨rfl, rfl⟩ := List.append_eq_nil_iff.mp hall
    exact ⟨start, 0, 0, rfl, .done start, .done start⟩
  | mark here marked further ih =>
    cases segments with
    | nil =>
      obtain rfl : rest = _ := hall
      exact ⟨_, 0, _, Nat.zero_add _, .done _, .mark here marked further⟩
    | cons segment segments =>
      obtain ⟨rfl, rfl⟩ := List.cons.inj hall
      obtain ⟨mid, k, l, hlinks, hfirst, hsecond⟩ := ih rfl
      exact ⟨mid, k, l, hlinks, .mark here marked hfirst, hsecond⟩
  | name here unmarked found unlinked further ih =>
    cases segments with
    | nil =>
      obtain rfl : rest = _ := hall
      exact ⟨_, 0, _, Nat.zero_add _, .done _, .name here unmarked found unlinked further⟩
    | cons segment segments =>
      obtain ⟨rfl, rfl⟩ := List.cons.inj hall
      obtain ⟨mid, k, l, hlinks, hfirst, hsecond⟩ := ih rfl
      exact ⟨mid, k, l, hlinks, .name here unmarked found unlinked hfirst, hsecond⟩
  | link here unmarked found further ih =>
    cases segments with
    | nil =>
      obtain rfl : rest = _ := hall
      exact ⟨_, 0, _, Nat.zero_add _, .done _, .link here unmarked found further⟩
    | cons segment segments =>
      obtain ⟨rfl, rfl⟩ := List.cons.inj hall
      obtain ⟨mid, k, l, hlinks, hfirst, hsecond⟩ := ih (List.append_assoc ..)
      exact ⟨mid, k + 1, l, by omega, .link here unmarked found hfirst, hsecond⟩

/-- What is no directory is walked over nowhere. -/
theorem eq_of_not_directory {stop : Place} (h : Leads top i start segments stop)
    (hstart : ∀ n, top.at? start = some n → n.isDirectory = false) :
    segments = [] ∧ stop = start := by
  cases h with
  | done => exact ⟨rfl, rfl⟩
  | mark here marked further => cases hstart _ here
  | name here unmarked found unlinked further => cases hstart _ here
  | link here unmarked found further => cases hstart _ here

end Leads

/-- Something stands at a place, and it is no link. -/
def Stands (top : Node) (place : Place) : Prop :=
  ∃ n, top.at? place = some n ∧ n.isSymlink = false

section Directory

variable {top : Node} {place : Place} {mode : Nat} {entries : List (Name × Node)}
  (here : top.at? place = some (.directory mode entries))
include here

theorem stands_root : Stands top [] := by
  obtain ⟨m, es, rfl⟩ := Node.eq_directory_of_at? here
  exact ⟨_, rfl, rfl⟩

theorem mayPass_above (h : top.mayPass place = true) : top.mayPass (above place) = true := by
  rcases List.eq_nil_or_concat' place with rfl | ⟨before, name, rfl⟩
  · exact h
  · obtain ⟨m, es, hbefore, hname⟩ := Node.at?_concat_eq_some_iff.mp here
    rw [Node.mayPass_concat hbefore (by rw [hname]; rfl), Bool.and_eq_true] at h
    rw [above, List.dropLast_concat]
    exact h.1

theorem exists_directory_above :
    ∃ m es, top.at? (above place) = some (.directory m es) := by
  rcases List.eq_nil_or_concat' place with rfl | ⟨before, name, rfl⟩
  · exact ⟨mode, entries, here⟩
  · obtain ⟨m, es, hbefore, _⟩ := Node.at?_concat_eq_some_iff.mp here
    rw [above, List.dropLast_concat]
    exact ⟨m, es, hbefore⟩

theorem stands_above : Stands top (above place) := by
  obtain ⟨m, es, habove⟩ := exists_directory_above here
  exact ⟨_, habove, rfl⟩

variable {name : Name} {n : Node} (found : enter mode entries name = .ok n)
include found

theorem stands_entry (unlinked : n.isSymlink = false) : Stands top (place ++ [name]) := by
  obtain ⟨_, _, hname⟩ := enter_eq_ok_iff.mp found
  exact ⟨n, (Node.at?_concat_of_directory here name).trans hname, unlinked⟩

theorem mayPass_entry (h : top.mayPass place = true) : top.mayPass (place ++ [name]) = true := by
  obtain ⟨hsearch, _, hname⟩ := enter_eq_ok_iff.mp found
  rw [Node.mayPass_concat here (by rw [hname]; rfl), h, hsearch]
  rfl

end Directory

namespace Leads

variable {top : Node} {links : Nat} {start stop : Place} {segments : List Bytes}
  (h : Leads top links start segments stop)
include h

/-- A walk goes from one directory to the root, to the one above it, or to one of its entries. What
none of these steps undoes is true where the walk ends, if it was where it began. -/
theorem keeps {P : Place → Prop} (hstart : P start)
    (hroot : ∀ place mode entries, top.at? place = some (.directory mode entries) → P [])
    (habove : ∀ place mode entries, top.at? place = some (.directory mode entries) →
      P place → P (above place))
    (hentry : ∀ place mode entries name n, top.at? place = some (.directory mode entries) →
      enter mode entries name = .ok n → n.isSymlink = false → P place → P (place ++ [name])) :
    P stop := by
  induction h with
  | done start => exact hstart
  | mark here marked further ih =>
    apply ih
    unfold mark? at marked
    split at marked
    · exact Except.ok.inj (Option.some.inj marked) ▸ hstart
    · split at marked
      · split at marked
        · cases marked
        · split at marked
          · exact Except.ok.inj (Option.some.inj marked) ▸ hstart
          · exact Except.ok.inj (Option.some.inj marked) ▸ habove _ _ _ here hstart
      · cases marked
  | name here unmarked found unlinked further ih =>
    exact ih (hentry _ _ _ _ _ here found unlinked hstart)
  | link here unmarked found further ih =>
    apply ih
    unfold origin
    split
    · exact hroot _ _ _ here
    · exact hstart

/-- Links are followed, so no walk ends at one. -/
theorem stands (hstart : Stands top start) : Stands top stop :=
  h.keeps hstart (fun _ _ _ here => stands_root here) (fun _ _ _ here _ => stands_above here)
    fun _ _ _ _ _ here found unlinked _ => stands_entry here found unlinked

/-- What can be got to from the root may be passed on the way from the root. -/
theorem mayPass (hstart : top.mayPass start = true) : top.mayPass stop = true :=
  h.keeps hstart (fun _ _ _ _ => by rw [Node.mayPass]) (fun _ _ _ here hp => mayPass_above here hp)
    fun _ _ _ _ _ here found _ hp => mayPass_entry here found hp

end Leads

/-- Where something stands that a walk ends at, something stands where it begins. -/
theorem Leads.stands_start {top : Node} {links : Nat} {start stop : Place} {segments : List Bytes}
    (h : Leads top links start segments stop) (hstop : Stands top stop) : Stands top start := by
  cases segments with
  | nil =>
    cases h
    exact hstop
  | cons first rest =>
    obtain ⟨mode, entries, here, _⟩ := h.first_step
    exact ⟨_, here, rfl⟩

/-- A path that no slash opens sets out from the place that it is met at. -/
theorem Leads.stands_of_relative {top : Node} {links : Nat} {p : Path} {here stop : Place}
    {segments : List Bytes} (h : Leads top links (origin p here) segments stop)
    (hstop : Stands top stop) (hrelative : p.isAbsolute = false) : Stands top here := by
  rw [origin, hrelative, if_neg Bool.false_ne_true] at h
  exact h.stands_start hstop

section Place

variable {top : Node} (htop : top.Sound) {place : Place} (hplace : Stands top place)
include htop hplace

/-- The names of a place lead there from the root, if all directories on the way let it pass. -/
theorem leads_place (hpass : top.mayPass place = true) : Leads top 0 [] place place := by
  obtain ⟨n, hn, hlink⟩ := hplace
  have hwithin : within top 0 [] place = .ok place := by
    rw [within, along_place htop _ rfl hn hlink, if_pos hpass]
    rfl
  obtain ⟨links, hlinks, hleads⟩ := leads_of_within hwithin
  rwa [Nat.le_zero.mp hlinks] at hleads

theorem Leads.eq_of_place {links : Nat} {stop : Place} (h : Leads top links [] place stop) :
    stop = place ∧ top.mayPass place = true := by
  obtain ⟨n, hn, hlink⟩ := hplace
  obtain ⟨jump, hjump⟩ := exists_jump top links
  have hwithin := h.within (Nat.le_refl links)
  rw [hjump, along_place htop jump rfl hn hlink] at hwithin
  split at hwithin
  · exact ⟨(Except.ok.inj hwithin).symm, ‹_›⟩
  · cases hwithin

/-- From the root, segments behind the names of a place lead where they lead from that place, if one
may pass to it. -/
theorem leads_place_append_iff {limit : Nat} {rest : List Bytes} {stop : Place} :
    (∃ links ≤ limit, Leads top links [] (place ++ rest) stop) ↔
      top.mayPass place = true ∧ ∃ links ≤ limit, Leads top links place rest stop := by
  constructor
  · intro h
    obtain ⟨links, hlinks, hleads⟩ := h
    obtain ⟨mid, i, j, hsum, hfirst, hlast⟩ := hleads.split
    obtain ⟨rfl, hpass⟩ := hfirst.eq_of_place htop hplace
    exact ⟨hpass, j, by omega, hlast⟩
  · intro h
    obtain ⟨hpass, links, hlinks, hlast⟩ := h
    have hleads := (leads_place htop hplace hpass).append hlast
    exact ⟨0 + links, by omega, hleads⟩

end Place

section UpToName

variable {top : Node} {links : Nat} {start stop : Place} {segments : List Bytes}
  (h : Leads top links start segments stop)
include h

/-- A walk goes on from where its first name is looked up. -/
theorem Leads.upToName :
    Leads top links (Walk.upToName start segments).1 (Walk.upToName start segments).2 stop := by
  induction segments generalizing start with
  | nil => exact h
  | cons segment rest ih =>
    rw [Walk.upToName]
    by_cases hidle : Path.isIdle segment = true
    · rw [if_pos hidle]
      exact ih (h.after_idle hidle)
    · rw [if_neg hidle]
      by_cases hparent : segment = Path.parentName
      · rw [if_pos hparent]
        subst hparent
        exact ih (h.after_mark fun mode => mark?_parentName mode start)
      · rwa [if_neg hparent]

/-- A walk without names ends at a directory, as it goes to directories above only. -/
theorem Leads.exists_directory (hne : segments ≠ [])
    (hnone : (Walk.upToName start segments).2 = []) :
    ∃ mode entries, top.at? stop = some (.directory mode entries) := by
  have hstart : ∃ mode entries, top.at? start = some (.directory mode entries) := by
    obtain ⟨segment, rest, rfl⟩ := List.exists_cons_of_ne_nil hne
    obtain ⟨mode, entries, here, _⟩ := h.first_step
    exact ⟨mode, entries, here⟩
  clear hne
  induction segments generalizing start with
  | nil =>
    cases h
    exact hstart
  | cons segment rest ih =>
    rw [Walk.upToName] at hnone
    by_cases hidle : Path.isIdle segment = true
    · rw [if_pos hidle] at hnone
      exact ih (h.after_idle hidle) hnone hstart
    · rw [if_neg hidle] at hnone
      by_cases hparent : segment = Path.parentName
      · rw [if_pos hparent] at hnone
        subst hparent
        obtain ⟨mode, entries, here⟩ := hstart
        exact ih (h.after_mark fun mode => mark?_parentName mode start) hnone
          (exists_directory_above here)
      · rw [if_neg hparent] at hnone
        cases hnone

end UpToName

end Walk

end Marginalia
