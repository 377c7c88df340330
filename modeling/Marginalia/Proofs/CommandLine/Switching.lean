import Marginalia.CommandLine.Invocation
import Marginalia.Proofs.Results
/-!
A switch that stands in front of a command's arguments changes nothing but what it switches on: the
arguments are read as before, as long as they do not give it themselves.
-/

namespace Marginalia

namespace Grammar

variable {δ : Type}

/-- A switch, as a draft has it. -/
structure Switch (δ : Type) where
  isOn : δ → Bool
  turnOn : δ → δ

section Switch

variable (s : Switch δ)

/-- A value is taken alike whether the switch is on or off, which it leaves as it was. -/
structure Blind (take : Taker δ) : Prop where
  taken : ∀ value draft next, take value draft = .ok next →
    take value (s.turnOn draft) = .ok (s.turnOn next)
  left : ∀ value draft next, take value draft = .ok next → s.isOn next = s.isOn draft

/-- An option other than the switch takes a value and does not look at the switch. -/
def BlindOption (o : OptionRule δ) : Prop :=
  ∃ take, o.action = .value take ∧ Blind s take ∧
    ∀ draft, o.isSpent (s.turnOn draft) = o.isSpent draft

/-- The option that turns the switch on, which may be done once. -/
structure Turns (o : OptionRule δ) : Prop where
  action : o.action = .switch s.turnOn
  isSpent : o.isSpent = s.isOn

/-- A grammar with a single switch, which nothing else looks at. -/
structure Switched (g : Grammar δ) : Prop where
  turned : ∀ draft, s.isOn (s.turnOn draft) = true
  options : ∀ o ∈ g.options, BlindOption s o ∨ Turns s o
  operands : ∀ rule ∈ g.operands, Blind s rule.take

def BlindPending : Pending δ → Prop
  | .nothing => True
  | .option _ isSpent take _ =>
    Blind s take ∧ ∀ draft, isSpent (s.turnOn draft) = isSpent draft
  | .operand rule _ => Blind s rule.take

/-- What is held back of a reading, and what may still come, does not look at the switch. -/
structure BlindReading (r : Reading δ) : Prop where
  pending : BlindPending s r.pending
  operands : ∀ rule ∈ r.operands, Blind s rule.take

/-- The reading with the switch turned on. -/
def turned (r : Reading δ) : Reading δ := { r with draft := s.turnOn r.draft }

/-- A step that either meets the switch or does the same after it has been turned on. -/
structure Mirrors {ε : Type} (step : Reading δ → Except ε (Reading δ)) (r t : Reading δ) :
    Prop where
  blind : BlindReading s t
  same : s.isOn t.draft = false →
    s.isOn r.draft = false ∧ step (turned s r) = .ok (turned s t)

variable {s} in
theorem Mirrors.of_eq {ε : Type} {step other : Reading δ → Except ε (Reading δ)} {r t : Reading δ}
    (h : Mirrors s other r t) (he : step (turned s r) = other (turned s r)) :
    Mirrors s step r t :=
  ⟨h.blind, fun hoff => ⟨(h.same hoff).1, he.trans (h.same hoff).2⟩⟩

theorem halting_mirrors {step : Reading δ → Except UsageError (Reading δ)} {r t : Reading δ}
    (h : Mirrors s step r t) : Mirrors s (halting ∘ step) r t :=
  ⟨h.blind, fun hoff => ⟨(h.same hoff).1, mapError_eq_ok_iff.mpr (h.same hoff).2⟩⟩

/-- One step after another. -/
theorem bind_mirrors {ε : Type} {first second : Reading δ → Except ε (Reading δ)}
    {r between t : Reading δ} (h : Mirrors s first r between) (h' : Mirrors s second between t) :
    Mirrors s (fun r => first r >>= second) r t := by
  refine ⟨h'.blind, ?_⟩
  intro hoff
  obtain ⟨hmid, hsecond⟩ := h'.same hoff
  obtain ⟨hbefore, hfirst⟩ := h.same hmid
  exact ⟨hbefore, bind_eq_ok_iff.mpr ⟨_, hfirst, hsecond⟩⟩

theorem takeValue_turned {shown : Text} {value : Bytes} {take : Taker δ} {draft next : δ}
    (htake : Blind s take) (h : takeValue shown take value draft = .ok next) :
    takeValue shown take value (s.turnOn draft) = .ok (s.turnOn next) ∧
      s.isOn next = s.isOn draft := by
  have hok : take value draft = .ok next := mapError_eq_ok_iff.mp h
  exact ⟨mapError_eq_ok_iff.mpr (htake.taken _ _ _ hok), htake.left _ _ _ hok⟩

theorem takeOption_turned {shown : Text} {value : Bytes} {isSpent : δ → Bool} {take : Taker δ}
    {draft next : δ} (htake : Blind s take)
    (hspent : ∀ draft, isSpent (s.turnOn draft) = isSpent draft)
    (h : takeOption shown isSpent take value draft = .ok next) :
    takeOption shown isSpent take value (s.turnOn draft) = .ok (s.turnOn next) ∧
      s.isOn next = s.isOn draft := by
  unfold takeOption at h ⊢
  rw [hspent]
  split at h
  · cases h
  · rw [if_neg ‹_›]
    exact takeValue_turned s htake h

theorem settle_turned {r : Reading δ} (hr : BlindReading s r) {draft : δ}
    (h : settle r = .ok draft) :
    settle (turned s r) = .ok (s.turnOn draft) ∧ s.isOn draft = s.isOn r.draft := by
  have hpending := hr.pending
  obtain ⟨old, pending, awaiting, closed, operands⟩ := r
  cases pending with
  | nothing =>
    obtain rfl : old = draft := Except.ok.inj h
    exact ⟨rfl, rfl⟩
  | option shown isSpent take value =>
    cases value with
    | none => cases h
    | some value => exact takeOption_turned s hpending.1 hpending.2 h
  | operand rule value => exact takeValue_turned s hpending h

theorem settled_turned {r t : Reading δ} (hr : BlindReading s r) (h : settled r = .ok t) :
    BlindReading s t ∧ settled (turned s r) = .ok (turned s t) ∧
      s.isOn t.draft = s.isOn r.draft := by
  obtain ⟨draft, hdraft, rfl⟩ := map_eq_ok_iff.mp h
  obtain ⟨hturned, hleft⟩ := settle_turned s hr hdraft
  exact ⟨⟨trivial, hr.operands⟩, map_eq_ok_iff.mpr ⟨_, hturned, rfl⟩, hleft⟩

theorem readOption_mirrors {o : OptionRule δ} (ho : BlindOption s o ∨ Turns s o)
    (hturned : ∀ draft, s.isOn (s.turnOn draft) = true) {r t : Reading δ}
    (hr : BlindReading s r) {attached : Option Bytes} (h : readOption r o attached = .ok t) :
    Mirrors s (readOption · o attached) r t := by
  rcases ho with ⟨take, haction, htake, hspent⟩ | hswitch
  · unfold readOption at h ⊢
    simp only [haction] at h ⊢
    cases attached with
    | some value =>
      obtain ⟨between, hbetween, h⟩ := bind_eq_ok_iff.mp h
      obtain ⟨draft, hdraft, h⟩ := bind_eq_ok_iff.mp h
      obtain rfl := Except.ok.inj h
      obtain ⟨hblind, hsettled, hleft⟩ := settled_turned s hr hbetween
      obtain ⟨htaken, hkept⟩ := takeOption_turned s htake hspent hdraft
      refine ⟨⟨hblind.pending, hblind.operands⟩, ?_⟩
      intro hoff
      refine ⟨hleft ▸ hkept ▸ hoff, ?_⟩
      apply bind_eq_ok_iff.mpr
      exact ⟨_, hsettled, bind_eq_ok_iff.mpr ⟨_, htaken, rfl⟩⟩
    | none =>
      obtain ⟨between, hbetween, h⟩ := bind_eq_ok_iff.mp h
      obtain rfl := Except.ok.inj h
      obtain ⟨hblind, hsettled, hleft⟩ := settled_turned s hr hbetween
      refine ⟨⟨⟨htake, hspent⟩, hblind.operands⟩, ?_⟩
      intro hoff
      exact ⟨hleft ▸ hoff, bind_eq_ok_iff.mpr ⟨_, hsettled, rfl⟩⟩
  · unfold readOption at h ⊢
    simp only [hswitch.action] at h ⊢
    cases attached with
    | some value => cases h
    | none =>
      obtain ⟨between, hbetween, h⟩ := bind_eq_ok_iff.mp h
      obtain ⟨hblind, _, _⟩ := settled_turned s hr hbetween
      split at h
      · cases h
      · obtain rfl := Except.ok.inj h
        refine ⟨⟨hblind.pending, hblind.operands⟩, ?_⟩
        intro hoff
        cases hoff.symm.trans (hturned between.draft)

variable {g : Grammar δ} (hg : Switched s g)
include hg

theorem readLong_mirrors {r t : Reading δ} (hr : BlindReading s r) {word : Bytes}
    (h : readLong g r word = .ok t) : Mirrors s (readLong g · word) r t := by
  unfold readLong at h ⊢
  cases hfind : g.options.find? (spells ·.long (cutLong word).1) with
  | none =>
    simp only [hfind] at h
    split at h
    · split at h
      · cases h
      · obtain ⟨_, _, h⟩ := bind_eq_ok_iff.mp h
        cases h
    · cases h
  | some o =>
    simp only [hfind] at h ⊢
    have ho := hg.options o (List.mem_of_find?_eq_some hfind)
    exact halting_mirrors s (readOption_mirrors s ho hg.turned hr (mapError_eq_ok_iff.mp h))

theorem readLetters_mirrors {r t : Reading δ} (hr : BlindReading s r) {letters : Bytes}
    (h : readLetters g r letters = .ok t) : Mirrors s (readLetters g · letters) r t := by
  induction letters generalizing r with
  | nil =>
    obtain rfl : r = t := Except.ok.inj h
    exact ⟨hr, fun hoff => ⟨hoff, rfl⟩⟩
  | cons letter rest ih =>
    cases hfind : g.options.find? (·.short.any (spells [·] [letter])) with
    | none =>
      simp only [readLetters, hfind] at h
      split at h
      · obtain ⟨_, _, h⟩ := bind_eq_ok_iff.mp h
        cases h
      · cases h
    | some o =>
      have ho := hg.options o (List.mem_of_find?_eq_some hfind)
      cases haction : o.action with
      | switch set =>
        have hall : ∀ r, readLetters g r (letter :: rest) =
            (halting ∘ (readOption · o none)) r >>= (readLetters g · rest) := by
          intro r
          simp only [readLetters, hfind, haction]
          rfl
        rw [hall] at h
        obtain ⟨between, hbetween, h⟩ := bind_eq_ok_iff.mp h
        have hfirst := readOption_mirrors s ho hg.turned hr (mapError_eq_ok_iff.mp hbetween)
        have hrest := ih hfirst.blind h
        exact (bind_mirrors s (halting_mirrors s hfirst) hrest).of_eq (hall _)
      | value take =>
        obtain ⟨attached, hall⟩ : ∃ attached, ∀ r, readLetters g r (letter :: rest) =
            (halting ∘ (readOption · o attached)) r := by
          cases rest with
          | nil => exact ⟨none, fun r => by simp only [readLetters, hfind, haction]; rfl⟩
          | cons next value =>
            exact ⟨some (if next = equals then value else next :: value),
              fun r => by simp only [readLetters, hfind, haction]; rfl⟩
        rw [hall] at h
        have hstep := readOption_mirrors s ho hg.turned hr (mapError_eq_ok_iff.mp h)
        exact (halting_mirrors s hstep).of_eq (hall _)

omit hg in
theorem readOperand_mirrors {r t : Reading δ} (hr : BlindReading s r) {word : Bytes}
    (h : readOperand r word = .ok t) : Mirrors s (readOperand · word) r t := by
  obtain ⟨draft, pending, awaiting, closed, operands⟩ := r
  cases operands with
  | nil => cases h
  | cons rule operands =>
    obtain ⟨between, hbetween, h⟩ := bind_eq_ok_iff.mp h
    obtain rfl := Except.ok.inj h
    obtain ⟨_, hsettled, hleft⟩ := settled_turned s hr (mapError_eq_ok_iff.mp hbetween)
    refine ⟨⟨hr.operands rule (by simp), fun other ho => hr.operands other (by simp [ho])⟩, ?_⟩
    intro hoff
    refine ⟨hleft ▸ hoff, ?_⟩
    exact bind_eq_ok_iff.mpr ⟨_, mapError_eq_ok_iff.mpr hsettled, rfl⟩

omit hg in
theorem readAwaited_mirrors {r : Reading δ} (hr : BlindReading s r) (word : Bytes) :
    BlindReading s (readAwaited r word) ∧
      readAwaited (turned s r) word = turned s (readAwaited r word) ∧
      (readAwaited r word).draft = r.draft := by
  obtain ⟨draft, pending, awaiting, closed, operands⟩ := r
  cases pending with
  | nothing => exact ⟨hr, rfl, rfl⟩
  | option shown isSpent take value => exact ⟨⟨hr.pending, hr.operands⟩, rfl, rfl⟩
  | operand rule value => exact ⟨hr, rfl, rfl⟩

omit hg in
/-- What is done with an argument, by its look, as long as options are recognised. -/
theorem readArgument_of_open (g : Grammar δ) (word : Bytes) {r : Reading δ}
    (hr : r.closed = false) :
    readArgument g r word =
      match lookOf word with
      | .ending => .ok { r with closed := true, awaiting := false }
      | .long name => readLong g r name
      | .letters letters => readLetters g r letters
      | .plain => if r.awaiting then .ok (readAwaited r word) else readOperand r word := by
  have hopen : ¬r.closed = true := by simp [hr]
  exact if_neg hopen

theorem readArgument_mirrors {r t : Reading δ} (hr : BlindReading s r) {word : Bytes}
    (h : readArgument g r word = .ok t) : Mirrors s (readArgument g · word) r t := by
  cases hclosed : r.closed with
  | true =>
    have hthis : ∀ r : Reading δ, r.closed = true →
        readArgument g r word = readOperand r word := by
      intro r hr
      rw [readArgument, if_pos hr]
    rw [hthis r hclosed] at h
    exact (readOperand_mirrors s hr h).of_eq (hthis _ hclosed)
  | false =>
    have hturned := readArgument_of_open g word (r := turned s r) hclosed
    rw [readArgument_of_open g word hclosed] at h
    cases hlook : lookOf word with
    | ending =>
      rw [hlook] at h hturned
      obtain rfl := Except.ok.inj h
      exact ⟨⟨hr.pending, hr.operands⟩, fun hoff => ⟨hoff, hturned⟩⟩
    | long name =>
      rw [hlook] at h hturned
      exact (readLong_mirrors s hg hr h).of_eq hturned
    | letters letters =>
      rw [hlook] at h hturned
      exact (readLetters_mirrors s hg hr h).of_eq hturned
    | plain =>
      rw [hlook] at h hturned
      dsimp only at h hturned
      cases hawaiting : r.awaiting with
      | true =>
        rw [hawaiting, if_pos rfl] at h
        obtain rfl := Except.ok.inj h
        obtain ⟨hblind, hsame, hdraft⟩ := readAwaited_mirrors s hr word
        refine ⟨hblind, ?_⟩
        intro hoff
        refine ⟨hdraft ▸ hoff, hturned.trans ?_⟩
        rw [if_pos (show (turned s r).awaiting = true from hawaiting), hsame]
      | false =>
        rw [hawaiting, if_neg Bool.false_ne_true] at h
        apply (readOperand_mirrors s hr h).of_eq
        rw [hturned, if_neg (show ¬ (turned s r).awaiting = true by simp [turned, hawaiting])]

theorem readArguments_mirrors {r t : Reading δ} (hr : BlindReading s r) {words : List Bytes}
    (h : words.foldlM (readArgument g) r = .ok t) :
    Mirrors s (words.foldlM (readArgument g) ·) r t := by
  induction words generalizing r with
  | nil =>
    obtain rfl : r = t := Except.ok.inj h
    exact ⟨hr, fun hoff => ⟨hoff, rfl⟩⟩
  | cons word words ih =>
    obtain ⟨between, hbetween, h⟩ := bind_eq_ok_iff.mp h
    have hfirst := readArgument_mirrors s hg hr hbetween
    exact bind_mirrors s hfirst (ih hfirst.blind h)

/-- Arguments that do not turn the switch on are read the same behind the word that does. -/
theorem read_cons_switch {draft result : δ} {word : Bytes} {words : List Bytes}
    (hword : ∀ r, r.closed = false → r.pending = .nothing → r.awaiting = false →
      s.isOn r.draft = false → readArgument g r word = .ok (turned s r))
    (h : g.read draft words = .ok result) (hoff : s.isOn result = false) :
    g.read draft (word :: words) = .ok (s.turnOn result) := by
  obtain ⟨last, hlast, h⟩ := bind_eq_ok_iff.mp h
  have hstart : BlindReading s ⟨draft, .nothing, false, false, g.operands⟩ :=
    ⟨trivial, hg.operands⟩
  have hall := readArguments_mirrors s hg hstart hlast
  obtain ⟨hsettled, hleft⟩ := settle_turned s hall.blind (mapError_eq_ok_iff.mp h)
  obtain ⟨hbefore, hsame⟩ := hall.same (hleft ▸ hoff)
  apply bind_eq_ok_iff.mpr
  refine ⟨_, bind_eq_ok_iff.mpr ⟨_, hword _ rfl rfl rfl hbefore, hsame⟩, ?_⟩
  exact mapError_eq_ok_iff.mpr hsettled

end Switch

end Grammar

namespace Invocation
open Grammar

theorem blind_into {δ α : Type} {s : Switch δ} {take : Bytes → Except Refusal α}
    {set : δ → Option α → δ}
    (hset : ∀ draft a, set (s.turnOn draft) a = s.turnOn (set draft a))
    (hleft : ∀ draft a, s.isOn (set draft a) = s.isOn draft) : Blind s (into take set) := by
  refine ⟨?_, ?_⟩
  · intro value draft next h
    obtain ⟨a, ha, rfl⟩ := map_eq_ok_iff.mp h
    exact map_eq_ok_iff.mpr ⟨a, ha, hset draft (some a)⟩
  · intro value draft next h
    obtain ⟨a, _, rfl⟩ := map_eq_ok_iff.mp h
    exact hleft draft (some a)

/-- The switch of a dry run. -/
def dryRunSwitch : Switch AnnotateDraft where
  isOn draft := draft.dryRun
  turnOn draft := { draft with dryRun := true }

theorem switched_annotateGrammar : Switched dryRunSwitch annotateGrammar where
  turned _ := rfl
  options := by
    intro o ho
    simp only [annotateGrammar, List.mem_cons, List.not_mem_nil, or_false] at ho
    rcases ho with rfl | rfl | rfl | rfl | rfl
    · exact Or.inl ⟨_, rfl, blind_into (fun _ _ => rfl) (fun _ _ => rfl), fun _ => rfl⟩
    · exact Or.inl ⟨_, rfl, blind_into (fun _ _ => rfl) (fun _ _ => rfl), fun _ => rfl⟩
    · exact Or.inl ⟨_, rfl, blind_into (fun _ _ => rfl) (fun _ _ => rfl), fun _ => rfl⟩
    · exact Or.inl ⟨_, rfl, blind_into (fun _ _ => rfl) (fun _ _ => rfl), fun _ => rfl⟩
    · exact Or.inr ⟨rfl, rfl⟩
  operands := by
    intro rule hrule
    obtain rfl := List.mem_singleton.mp hrule
    show Blind dryRunSwitch (into takePath fun draft file => { draft with file })
    exact blind_into (fun _ _ => rfl) (fun _ _ => rfl)

theorem readArgument_dryRun {r : Reading AnnotateDraft} (hclosed : r.closed = false)
    (hpending : r.pending = .nothing) (hawaiting : r.awaiting = false)
    (hoff : r.draft.dryRun = false) :
    readArgument annotateGrammar r (Utf8.encode "--dry-run".toList) =
      .ok (turned dryRunSwitch r) := by
  obtain ⟨⟨file, line, kind, fileType, note, dryRun⟩, pending, awaiting, closed, operands⟩ := r
  obtain rfl : pending = .nothing := hpending
  obtain rfl : awaiting = false := hawaiting
  obtain rfl : closed = false := hclosed
  obtain rfl : dryRun = false := hoff
  rfl

/-- Any command line of an `annotate` asks for a dry run with one more word behind the first. -/
theorem read_annotate_dryRun {words : List Bytes} {file : Path} {line : Nat} {kind : CommentKind}
    {fileType : Option Text} {note : Text}
    (h : readAnnotate words = .ok (.annotate file line kind fileType note false)) :
    readAnnotate (Utf8.encode "--dry-run".toList :: words) =
      .ok (.annotate file line kind fileType note true) := by
  obtain ⟨d, hd, h⟩ := bind_eq_ok_iff.mp h
  obtain ⟨f, hf, h⟩ := bind_eq_ok_iff.mp h
  obtain ⟨n, hn, h⟩ := bind_eq_ok_iff.mp h
  obtain ⟨t, ht, h⟩ := bind_eq_ok_iff.mp h
  obtain ⟨rfl, rfl, rfl, rfl, rfl, hoff⟩ := Command.annotate.inj (Except.ok.inj h)
  have hread := read_cons_switch dryRunSwitch switched_annotateGrammar
    (fun _ hclosed hpending hawaiting hoff =>
      readArgument_dryRun hclosed hpending hawaiting hoff) hd hoff
  apply bind_eq_ok_iff.mpr
  refine ⟨_, hread, bind_eq_ok_iff.mpr ⟨f, hf, ?_⟩⟩
  refine bind_eq_ok_iff.mpr ⟨n, hn, bind_eq_ok_iff.mpr ⟨t, ht, rfl⟩⟩

theorem readTopClosed_ne_ok (words : List Bytes) (c : Command) : readTopClosed words ≠ .ok c := by
  cases words <;> simp [readTopClosed]

theorem readTopLong_ne_ok (word : Bytes) (c : Command) : readTopLong word ≠ .ok c := by
  intro h
  unfold readTopLong at h
  dsimp only at h
  split at h
  · split at h <;> cases h
  · cases h

theorem readHelp_ne_ok (words : List Bytes) (c : Command) : readHelp words ≠ .ok c := by
  intro h
  unfold readHelp at h
  split at h
  · cases h
  · split at h
    · cases h
    · split at h <;> cases h

theorem readTop_ne_ok (word : Bytes) (rest : List Bytes) (c : Command) :
    readTop word rest ≠ .ok c := by
  intro h
  unfold readTop at h
  split at h
  · exact readTopClosed_ne_ok _ c h
  · exact readTopLong_ne_ok _ c h
  · unfold readTopLetters at h
    dsimp only at h
    split at h
    · cases h
    · split at h <;> cases h
  · split at h
    · exact readHelp_ne_ok _ c h
    · cases h

/-- Only the reader that goes by the first word tells a command. -/
theorem of_read {word : Bytes} {rest : List Bytes} {c : Command}
    (h : read (word :: rest) = .ok c) :
    ∃ name readCommand, (name, readCommand) ∈ commands ∧ word = Utf8.encode name ∧
      readCommand rest = .ok c := by
  rw [read] at h
  cases hreader : reader? word with
  | none =>
    rw [hreader] at h
    exact absurd h (readTop_ne_ok word rest c)
  | some readCommand =>
    rw [hreader] at h
    obtain ⟨⟨name, found⟩, hfind, rfl⟩ := Option.map_eq_some_iff.mp hreader
    have hspells := List.find?_some hfind
    exact ⟨name, found, List.mem_of_find?_eq_some hfind, (beq_iff_eq.mp hspells).symm, h⟩

theorem readAnnotate_of_read {words : List Bytes} {file : Path} {line : Nat} {kind : CommentKind}
    {fileType : Option Text} {note : Text} {dryRun : Bool}
    (h : read words = .ok (.annotate file line kind fileType note dryRun)) :
    ∃ rest, words = Utf8.encode "annotate".toList :: rest ∧
      readAnnotate rest = .ok (.annotate file line kind fileType note dryRun) := by
  cases words with
  | nil => cases h
  | cons word rest =>
    obtain ⟨name, readCommand, hmem, rfl, h⟩ := of_read h
    simp only [commands, List.mem_cons, Prod.mk.injEq, List.not_mem_nil, or_false] at hmem
    rcases hmem with ⟨_, rfl⟩ | ⟨_, rfl⟩ | ⟨rfl, rfl⟩ | ⟨_, rfl⟩ | ⟨_, rfl⟩ | ⟨_, rfl⟩
    · obtain ⟨_, _, h⟩ := bind_eq_ok_iff.mp h
      obtain ⟨_, _, h⟩ := bind_eq_ok_iff.mp h
      cases h
    · obtain ⟨_, _, h⟩ := bind_eq_ok_iff.mp h
      obtain ⟨_, _, h⟩ := bind_eq_ok_iff.mp h
      obtain ⟨_, _, h⟩ := bind_eq_ok_iff.mp h
      cases h
    · exact ⟨rest, rfl, h⟩
    · obtain ⟨_, _, h⟩ := bind_eq_ok_iff.mp h
      cases h
    · obtain ⟨_, _, h⟩ := bind_eq_ok_iff.mp h
      obtain ⟨_, _, h⟩ := bind_eq_ok_iff.mp h
      obtain ⟨_, _, h⟩ := bind_eq_ok_iff.mp h
      obtain ⟨_, _, h⟩ := bind_eq_ok_iff.mp h
      cases h
    · obtain ⟨_, _, h⟩ := bind_eq_ok_iff.mp h
      cases h

/-- Every command line that asks for a note to be added asks for a dry run of that with one more
word behind the first. -/
theorem exists_dryRun {words : List Bytes} {file : Path} {line : Nat} {kind : CommentKind}
    {fileType : Option Text} {note : Text}
    (h : read words = .ok (.annotate file line kind fileType note false)) :
    ∃ rest, words = Utf8.encode "annotate".toList :: rest ∧
      read (Utf8.encode "annotate".toList :: Utf8.encode "--dry-run".toList :: rest) =
        .ok (.annotate file line kind fileType note true) := by
  obtain ⟨rest, rfl, hrest⟩ := readAnnotate_of_read h
  exact ⟨rest, rfl, read_annotate_dryRun hrest⟩

end Invocation

end Marginalia
