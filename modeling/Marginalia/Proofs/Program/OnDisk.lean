import Marginalia.Program
import Marginalia.Proofs.Tree.Saving
/-!
What a run of the program comes to on a tree in memory: each command as what it reads there, what it
answers, and the tree that it leaves.
-/

namespace Marginalia

namespace Disk

/-- What a job answers on a disk, and the disk that it leaves. -/
def ask {α : Type} (d : Disk) (job : ExceptT Failure (StateM Disk) α) : Except Failure α × Disk :=
  job.run.run d

theorem ask_bind {α β : Type} (d : Disk) (job : ExceptT Failure (StateM Disk) α)
    (next : α → ExceptT Failure (StateM Disk) β) :
    d.ask (job >>= next) =
      match d.ask job with
      | (.ok a, other) => other.ask (next a)
      | (.error e, other) => (.error e, other) := by
  unfold ask
  rw [ExceptT.run_bind, StateT.run_bind]
  cases h : job.run.run d with
  | mk result other => cases result <;> rfl

theorem ask_bind_of_looks {α β : Type} {d : Disk} {job : ExceptT Failure (StateM Disk) α}
    {next : α → ExceptT Failure (StateM Disk) β} (hjob : (d.ask job).2 = d)
    (hnext : ∀ a, (d.ask (next a)).2 = d) : (d.ask (job >>= next)).2 = d := by
  rw [ask_bind]
  cases h : d.ask job with
  | mk answer other =>
    rw [h] at hjob
    obtain rfl : other = d := hjob
    cases answer with
    | error e => rfl
    | ok a => exact hnext a

/-- The source that is read at a path. -/
def source (d : Disk) (p : Path) : Except Failure SourceText :=
  match d.contents p with
  | .error e => .error (.file .reading p e)
  | .ok bytes =>
    match Utf8.decode? bytes with
    | some content => .ok (.parse content)
    | none => .error (.file .reading p .notUtf8)

/-- The source at a path with a note added. -/
def annotated (d : Disk) (p : Path) (r : Request) : Except Failure SourceText :=
  (d.source p).bind (·.annotate r)

theorem source_eq_ok {d : Disk} {p : Path} {s : SourceText} (h : d.source p = .ok s) :
    ∃ bytes content, d.contents p = .ok bytes ∧ Utf8.decode? bytes = some content ∧
      s = .parse content := by
  unfold source at h
  cases hbytes : d.contents p with
  | error e =>
    rw [hbytes] at h
    cases h
  | ok bytes =>
    rw [hbytes] at h
    dsimp only at h
    cases hcontent : Utf8.decode? bytes with
    | none =>
      rw [hcontent] at h
      cases h
    | some content =>
      rw [hcontent] at h
      exact ⟨bytes, content, rfl, hcontent, (Except.ok.inj h).symm⟩

theorem ask_readLines (d : Disk) (p : Path) :
    d.ask (Disk.files.readLines p) =
      (((d.contents p).map LineReader.linesOf).mapError (.file .reading p), d) := by
  have hcontents : d.ask (liftM (Disk.files.contents p)) = (.ok (d.contents p), d) := rfl
  rw [Files.readLines, ask_bind, hcontents]
  dsimp only
  cases d.contents p <;> rfl

theorem ask_readSource (d : Disk) (p : Path) :
    d.ask (Disk.files.readSource p) = (d.source p, d) := by
  have hcontents : d.ask (liftM (Disk.files.contents p)) = (.ok (d.contents p), d) := rfl
  rw [Files.readSource, ask_bind, hcontents]
  dsimp only
  unfold source
  cases d.contents p with
  | error e => rfl
  | ok bytes =>
    dsimp only
    cases Utf8.decode? bytes <;> rfl

theorem ask_annotated (d : Disk) (p : Path) (r : Request) :
    d.ask (Disk.files.annotated p r) = (d.annotated p r, d) := by
  rw [Files.annotated, ask_bind, ask_readSource]
  unfold annotated
  cases d.source p with
  | error e => rfl
  | ok s =>
    dsimp only [Except.bind]
    cases s.annotate r <;> rfl

theorem ask_saveSource (d : Disk) (p : Path) (s : SourceText) :
    d.ask (Disk.files.saveSource p s) =
      ((d.save p (Utf8.encode s.render)).1.mapError (.file .saving p),
        (d.save p (Utf8.encode s.render)).2) := by
  have hsave : d.ask (liftM (Disk.files.save p (Utf8.encode s.render))) =
      (.ok (d.save p (Utf8.encode s.render)).1, (d.save p (Utf8.encode s.render)).2) := rfl
  rw [Files.saveSource, ask_bind, hsave]
  dsimp only
  cases (d.save p (Utf8.encode s.render)).1 <;> rfl

theorem ask_makeEmpty (d : Disk) (p : Path) :
    d.ask (Disk.files.makeEmpty p) =
      ((d.create p).1.mapError (.file .creating p), (d.create p).2) := by
  have hcreate : d.ask (liftM (Disk.files.create p)) =
      (.ok (d.create p).1, (d.create p).2) := rfl
  rw [Files.makeEmpty, ask_bind, hcreate]
  dsimp only
  cases (d.create p).1 <;> rfl

/-- A scan only looks. -/
theorem ask_scan (d : Disk) (p : Path) (o : ScanOptions) (filespec : Option Text) :
    (d.ask (Disk.files.scan p o filespec)).2 = d := by
  have hexplore : d.ask (liftM (Disk.files.explore p)) = (.ok (d.explore p), d) := rfl
  rw [Files.scan, ask_bind, hexplore]
  dsimp only
  cases d.explore p with
  | none => rfl
  | some found =>
    obtain ⟨root, n⟩ := found
    dsimp only
    rw [ask_bind]
    cases Files.patternOf filespec <;> rfl

end Disk

namespace Command

/-- What a command comes to on a disk, and the disk that it leaves. -/
def on (d : Disk) (ink : Ink) (c : Command) : Outcome × Disk := (c.perform Disk.files ink).run d

/-- Nothing is changed by such a command. -/
def onlyReads : Command → Bool
  | annotate _ _ _ _ _ dryRun => dryRun
  | create _ _ _ => false
  | _ => true

section On

variable (d : Disk) (ink : Ink)

theorem on_job (job : ExceptT Failure (StateM Disk) (List Text)) :
    (Outcome.ofExcept <$> job.run : StateM Disk Outcome).run d =
      (.ofExcept (d.ask job).1, (d.ask job).2) := rfl

theorem on_analyze (file : Path) (fileType : Option Text) (verbose : Bool) :
    (analyze file fileType verbose).on d ink =
      (.ofExcept ((((d.contents file).map LineReader.linesOf).mapError (.file .reading file)).map
        (analysis ink file (typeName file fileType) verbose)), d) := by
  rw [on, perform, on_job, Disk.ask_bind, Disk.ask_readLines]
  cases d.contents file <;> rfl

section Annotate

variable {d} {file : Path} {line : Nat} {kind : CommentKind} {fileType : Option Text} {note : Text}

/-- What keeps a note from being added ends a dry run like any other. -/
theorem on_annotate_of_error {e : Failure}
    (h : d.annotated file (requestFor file line kind fileType note) = .error e) (dryRun : Bool) :
    (annotate file line kind fileType note dryRun).on d ink = (.ofExcept (.error e), d) := by
  rw [on, perform, on_job, performAnnotate]
  cases dryRun with
  | true =>
    rw [if_pos rfl, Disk.ask_bind, Disk.ask_annotated, h]
  | false =>
    rw [if_neg Bool.false_ne_true, Disk.ask_bind, Files.annotate, Disk.ask_bind,
      Disk.ask_annotated, h]

theorem on_annotate_dry {t : SourceText}
    (h : d.annotated file (requestFor file line kind fileType note) = .ok t) :
    (annotate file line kind fileType note true).on d ink =
      (.ofExcept (.ok (t.lines.map (Text.line [·]))), d) := by
  rw [on, perform, on_job, performAnnotate, if_pos rfl, Disk.ask_bind, Disk.ask_annotated, h]
  rfl

theorem on_annotate {t : SourceText}
    (h : d.annotated file (requestFor file line kind fileType note) = .ok t) :
    (annotate file line kind fileType note false).on d ink =
      (.ofExcept (((d.save file (Utf8.encode t.render)).1.mapError (.file .saving file)).map
          fun _ => [added ink file (requestFor file line kind fileType note)]),
        (d.save file (Utf8.encode t.render)).2) := by
  rw [on, perform, on_job, performAnnotate, if_neg Bool.false_ne_true, Disk.ask_bind,
    Files.annotate, Disk.ask_bind, Disk.ask_annotated, h]
  dsimp only
  rw [Disk.ask_bind, Disk.ask_saveSource]
  cases (d.save file (Utf8.encode t.render)).1 <;> rfl

end Annotate

theorem on_create (directory : Path) (name : Text) (f : FileType) :
    (create directory name f).on d ink =
      if Text.trim name = [] then (.ofExcept (.error .emptyFileName), d)
      else
        (.ofExcept (((d.create (newFile directory name f)).1.mapError
            (.file .creating (newFile directory name f))).map fun _ =>
            [Text.line ["File created successfully: ".toList,
              (newFile directory name f).display]]),
          (d.create (newFile directory name f)).2) := by
  rw [on, perform, on_job, performCreate]
  split
  · rfl
  · rw [Disk.ask_bind, Disk.ask_makeEmpty]
    cases (d.create (newFile directory name f)).1 <;> rfl

theorem on_eq_of_onlyReads {c : Command} (h : c.onlyReads = true) : (c.on d ink).2 = d := by
  cases c with
  | analyze file fileType verbose => rw [on_analyze]
  | search file term =>
    rw [on, perform, on_job]
    apply Disk.ask_bind_of_looks
    · rw [Disk.ask_readLines]
    · intro lines
      apply Disk.ask_bind_of_looks
      · cases Marginalia.search lines term <;> rfl
      · exact fun _ => rfl
  | annotate file line kind fileType note dryRun =>
    obtain rfl : dryRun = true := h
    cases hannotated : d.annotated file (requestFor file line kind fileType note) with
    | error e => rw [on_annotate_of_error ink hannotated]
    | ok t => rw [on_annotate_dry ink hannotated]
  | scan root options filespec verbose =>
    have hscan := Disk.ask_scan d root options filespec
    rw [on, perform, performScan, StateT.run_bind]
    cases hanswer : d.ask (Disk.files.scan root options filespec) with
    | mk answer other =>
      rw [hanswer] at hscan
      obtain rfl : other = d := hscan
      rw [show (Disk.files.scan root options filespec).run.run other = _ from hanswer]
      cases answer with
      | error e => rfl
      | ok found =>
        obtain ⟨path, progress, warnings, outcome⟩ := found
        cases outcome <;> rfl
  | create directory name f => cases h
  | languages => rfl

end On

end Command

namespace Program

/-- How a run ends on a disk, and the disk that it leaves. -/
def on (d : Disk) (e : Environment) (words : List Bytes) : Ending × Disk :=
  (run Disk.files e words).run d

/-- What becomes of a disk by runs, one after another. -/
def after (d : Disk) (runs : List (Environment × List Bytes)) : Disk :=
  runs.foldl (fun d run => (on d run.1 run.2).2) d

theorem on_of_read {d : Disk} {e : Environment} {words : List Bytes} {c : Command}
    (h : Invocation.read words = .ok c) :
    on d e words = (endOfOutcome e.ink (c.on d e.ink).1, (c.on d e.ink).2) := by
  rw [on, run, h]
  rfl

theorem on_of_halt {d : Disk} {e : Environment} {words : List Bytes} {halt : Halt}
    (h : Invocation.read words = .error halt) :
    on d e words = (endOfHalt e.usageInk halt, d) := by
  rw [on, run, h]
  rfl

end Program

end Marginalia
