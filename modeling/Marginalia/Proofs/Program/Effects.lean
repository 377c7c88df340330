import Marginalia.Proofs.Program.OnDisk
import Marginalia.Proofs.Scan.Found
import Marginalia.Proofs.Session.Reachable
import Marginalia.Proofs.Text.Decoding
/-!
What a run of the program does to a tree: nothing, unless it is an `annotate` or a `create` that
ends well, and then one entry is set.
-/

namespace Marginalia

namespace Disk

theorem annotated_eq_ok {d : Disk} {p : Path} {r : Request} {t : SourceText}
    (h : d.annotated p r = .ok t) :
    ∃ bytes content, d.contents p = .ok bytes ∧ Utf8.decode? bytes = some content ∧
      (SourceText.parse content).annotate r = .ok t := by
  obtain ⟨s, hs, ht⟩ := bind_eq_ok_iff.mp h
  obtain ⟨bytes, content, hbytes, hcontent, rfl⟩ := source_eq_ok hs
  exact ⟨bytes, content, hbytes, hcontent, ht⟩

/-- A text with a note added is not what the file holds already. -/
theorem Names.holds_other {d : Disk} {p : Path} {place : Place} {name : Name}
    (h : d.Names p place name) {r : Request} {t : SourceText} (ht : d.annotated p r = .ok t)
    (mode : Nat) : d.top.at? (place ++ [name]) ≠ some (.file mode (Utf8.encode t.render)) := by
  intro hfile
  obtain ⟨bytes, content, hbytes, hcontent, ha⟩ := annotated_eq_ok ht
  obtain ⟨_, _, hlook, _⟩ := contents_eq_ok_iff.mp hbytes
  obtain ⟨_, hsame⟩ := Prod.mk.inj (Except.ok.inj ((h.lookUp hfile rfl).symm.trans hlook))
  obtain ⟨_, rfl⟩ := Node.file.inj hsame
  rw [Utf8.decode?_encode] at hcontent
  exact SourceText.render_ne_of_annotate ha (Option.some.inj hcontent)

/-- A file that was made once is not made again. -/
theorem Names.create_again {d : Disk} {p : Path} {place : Place} {name : Name}
    (h : d.Names p place name) (hfree : d.top.at? (place ++ [name]) = none) (mode : Nat)
    (data : Bytes) :
    (d.put place name (.file mode data)).create p =
      (.error (.system .alreadyThere), d.put place name (.file mode data)) := by
  have hdead : Walk.DeadEnd d.top place name := by
    apply Walk.deadEnd_of_plain h.isName
    intro n hn
    rw [hfree] at hn
    cases hn
  have hsets := h.sets_put hdead.flat (rfl : (Node.file mode data).isDirectory = false)
  exact (hsets.names_after hdead).create_eq_alreadyThere hsets.stands

end Disk

namespace Command

/-- An `annotate` that is no dry run fails and changes nothing, or saves the file. -/
theorem on_annotate_cases {d : Disk} (hd : d.top.Sound) (ink : Ink) (file : Path) (line : Nat)
    (kind : CommentKind) (fileType : Option Text) (note : Text) :
    (∃ e, (annotate file line kind fileType note false).on d ink = (.ofExcept (.error e), d)) ∨
    ∃ t place name, d.annotated file (requestFor file line kind fileType note) = .ok t ∧
      d.Names file place name ∧
      (∀ m, d.top.at? (place ++ [name]) = some m → m.isDirectory = false) ∧
      (annotate file line kind fileType note false).on d ink =
        (.ofExcept (.ok [added ink file (requestFor file line kind fileType note)]),
          d.put place name (.file (d.savedMode file) (Utf8.encode t.render))) := by
  cases ht : d.annotated file (requestFor file line kind fileType note) with
  | error e =>
    left
    exact ⟨e, on_annotate_of_error ink ht false⟩
  | ok t =>
    rcases Disk.save_cases hd file (Utf8.encode t.render) with
      ⟨e, hsave⟩ | ⟨place, name, hnames, hflat, hsave⟩
    · left
      refine ⟨.file .saving file e, ?_⟩
      rw [on_annotate ink ht, hsave]
      rfl
    · right
      refine ⟨t, place, name, rfl, hnames, hflat, ?_⟩
      rw [on_annotate ink ht, hsave]
      rfl

/-- A `create` fails and changes nothing, or makes an empty file in an entry that was free. -/
theorem on_create_cases (d : Disk) (ink : Ink) (directory : Path) (name : Text) (f : FileType) :
    (∃ e, (create directory name f).on d ink = (.ofExcept (.error e), d)) ∨
    ∃ out place key, Text.trim name ≠ [] ∧ d.Names (newFile directory name f) place key ∧
      d.top.at? (place ++ [key]) = none ∧
      (create directory name f).on d ink =
        (.ofExcept (.ok out), d.put place key (.file Disk.newMode [])) := by
  rw [on_create]
  by_cases htrim : Text.trim name = []
  · left
    exact ⟨.emptyFileName, by rw [if_pos htrim]⟩
  · rw [if_neg htrim]
    rcases d.create_cases (newFile directory name f) with
      ⟨e, hcreate⟩ | ⟨place, key, hnames, hfree, hcreate⟩
    · left
      exact ⟨.file .creating (newFile directory name f) e, by rw [hcreate]; rfl⟩
    · right
      exact ⟨_, place, key, htrim, hnames, hfree, by rw [hcreate]; rfl⟩

end Command

namespace Program

/-- What a run changes it changes by setting a file, and then it ends well. -/
theorem on_cases {d : Disk} (hd : d.top.Sound) (e : Environment) (words : List Bytes) :
    (on d e words).2 = d ∨
    (on d e words).1.code = 0 ∧ ∃ p place name mode data, d.Names p place name ∧
      (on d e words).2 = d.put place name (.file mode data) := by
  cases hread : Invocation.read words with
  | error halt =>
    left
    rw [on_of_halt hread]
  | ok c =>
    rw [on_of_read hread]
    cases hreads : c.onlyReads with
    | true =>
      left
      exact Command.on_eq_of_onlyReads d e.ink hreads
    | false =>
      cases c with
      | annotate file line kind fileType note dryRun =>
        obtain rfl : dryRun = false := hreads
        rcases Command.on_annotate_cases hd e.ink file line kind fileType note with
          ⟨failure, hon⟩ | ⟨t, place, name, _, hnames, _, hon⟩
        · left
          rw [hon]
        · right
          rw [hon]
          exact ⟨rfl, file, place, name, _, _, hnames, rfl⟩
      | create directory name f =>
        rcases Command.on_create_cases d e.ink directory name f with
          ⟨failure, hon⟩ | ⟨out, place, key, _, hnames, _, hon⟩
        · left
          rw [hon]
        · right
          rw [hon]
          exact ⟨rfl, _, place, key, _, _, hnames, rfl⟩
      | analyze file fileType verbose => cases hreads
      | search file term => cases hreads
      | scan root options filespec verbose => cases hreads
      | languages => cases hreads

theorem on_sound {d : Disk} (hd : d.top.Sound) (e : Environment) (words : List Bytes) :
    (on d e words).2.top.Sound := by
  rcases on_cases hd e words with hsame | ⟨_, p, place, name, mode, data, hnames, hput⟩
  · rwa [hsame]
  · rw [hput]
    exact hd.put (.file mode data) hnames.proper place

theorem after_sound {d : Disk} (hd : d.top.Sound) (runs : List (Environment × List Bytes)) :
    (after d runs).top.Sound := by
  induction runs generalizing d with
  | nil => exact hd
  | cons run runs ih => exact ih (on_sound hd run.1 run.2)

/-- Whatever ran before, a run leaves the tree as it was if it fails or only reads. An `annotate`
that ends well sets one entry, the one that its path names, to another file than stood there. A
`create` that ends well makes an empty file where nothing was, and the same words once more fail and
change nothing. -/
theorem leaves_alone_unless_said {d : Disk} (hd : d.top.Sound)
    (earlier : List (Environment × List Bytes)) (e : Environment) (words : List Bytes) :
    let before := after d earlier
    let ending := (on before e words).1
    let left := (on before e words).2
    (ending.code ≠ 0 → left = before) ∧
    ((∀ c, Invocation.read words = .ok c → c.onlyReads = true) → left = before) ∧
    (∀ file line kind fileType note,
      Invocation.read words = .ok (.annotate file line kind fileType note false) →
      ending.code = 0 →
      ∃ place name mode data, Disk.Sets before file place name (.file mode data) left ∧
        before.top.at? (place ++ [name]) ≠ some (.file mode data)) ∧
    ∀ directory name f, Invocation.read words = .ok (.create directory name f) →
      ending.code = 0 →
      let file := Command.newFile directory name f
      ∃ place key, before.top.at? (place ++ [key]) = none ∧
        Disk.Sets before file place key (.file Disk.newMode []) left ∧
        ∀ next : Environment, on left next words =
          let refusal : Failure := .file .creating file (.system .alreadyThere)
          (⟨1, [], [failureLine next.ink refusal]⟩, left) := by
  intro before ending left
  have hsound : before.top.Sound := after_sound hd earlier
  simp only [ending, left]
  refine ⟨?_, ?_, ?_, ?_⟩
  · intro hcode
    rcases on_cases hsound e words with hsame | ⟨hzero, _⟩
    · exact hsame
    · exact absurd hzero hcode
  · intro hreads
    cases hread : Invocation.read words with
    | error halt => rw [on_of_halt hread]
    | ok c =>
      rw [on_of_read hread]
      exact Command.on_eq_of_onlyReads before e.ink (hreads c hread)
  · intro file line kind fileType note hread hcode
    rw [on_of_read hread] at hcode ⊢
    rcases Command.on_annotate_cases hsound e.ink file line kind fileType note with
      ⟨failure, hon⟩ | ⟨t, place, name, ht, hnames, hflat, hon⟩
    · rw [hon] at hcode
      cases hcode
    · rw [hon]
      exact ⟨place, name, _, _, hnames.sets_put hflat rfl, hnames.holds_other ht _⟩
  · intro directory name f hread hcode
    rw [on_of_read hread] at hcode ⊢
    rcases Command.on_create_cases before e.ink directory name f with
      ⟨failure, hon⟩ | ⟨out, place, key, htrim, hnames, hfree, hon⟩
    · rw [hon] at hcode
      cases hcode
    · rw [hon]
      have hflat : ∀ m, before.top.at? (place ++ [key]) = some m → m.isDirectory = false := by
        intro m hm
        rw [hfree] at hm
        cases hm
      refine ⟨place, key, hfree, hnames.sets_put hflat rfl, ?_⟩
      intro next
      rw [on_of_read hread, Command.on_create, if_neg htrim]
      rw [hnames.create_again hfree]
      rfl

/-- An absolute path through an absolute link names the entry that the link's directory has. -/
theorem leaves_alone_unless_said_linked :
    let words := ["annotate".toList, "/w/link/lib.rs".toList, "-l1".toList, "-tc".toList,
      "--text=note".toList].map Utf8.encode
    ∃ place name mode data,
      Disk.Sets Disk.linked (.ofText "/w/link/lib.rs".toList) place name (.file mode data)
        (on Disk.linked ⟨none, none⟩ words).2 ∧
      Disk.linked.top.at? (place ++ [name]) ≠ some (.file mode data) := by
  intro words
  have hread : Invocation.read words =
      .ok (.annotate (.ofText "/w/link/lib.rs".toList) 1 .singleLine (some ['c']) "note".toList
        false) := rfl
  have hcode : (on Disk.linked ⟨none, none⟩ words).1.code = 0 := by decide +kernel
  -- From here on the words are any that read so, and nothing is computed any more.
  clear_value words
  obtain ⟨_, _, hannotate, _⟩ := leaves_alone_unless_said Disk.linked_sound [] ⟨none, none⟩ words
  exact hannotate _ _ _ _ _ hread hcode

end Program

end Marginalia
