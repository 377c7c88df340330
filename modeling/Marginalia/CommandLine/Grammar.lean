import Marginalia.CommandLine.UsageError
/-!
Reading a command's arguments, which are bytes and need not be texts. A grammar lists the options
and the operands of a command, each with what it does to a draft of the command. An option's value
is held back until the next argument has been recognised, so that an unknown argument is reported
before a bad value in front of it.
-/

namespace Marginalia

/-- Why a value is refused. -/
inductive Refusal where
  | empty
  | notUtf8
  | because (reason : Text)
deriving DecidableEq, Repr

/-- Takes a value into a draft. -/
abbrev Taker (δ : Type) := Bytes → δ → Except Refusal δ

/-- An option takes a value, or switches something on. -/
inductive OptionAction (δ : Type) where
  | value (take : Taker δ)
  | switch (set : δ → δ)

structure OptionRule (δ : Type) where
  long : Text
  short : Option Char
  /-- How the option is written in messages. -/
  shown : Text
  /-- Whether it has been given already and may not be given again. -/
  isSpent : δ → Bool
  action : OptionAction δ

structure OperandRule (δ : Type) where
  shown : Text
  take : Taker δ

structure Grammar (δ : Type) where
  options : List (OptionRule δ)
  operands : List (OperandRule δ)

/-- Why the reading of a command line ends early. -/
inductive Halt where
  | help
  | version
  | error (e : UsageError)
deriving DecidableEq, Repr

namespace Grammar

variable {δ : Type}

/-- An argument whose effect is held back. -/
inductive Pending (δ : Type) where
  | nothing
  | option (shown : Text) (isSpent : δ → Bool) (take : Taker δ) (value : Option Bytes)
  | operand (rule : OperandRule δ) (value : Bytes)

/-- How far the arguments have been read. `awaiting` tells that the next one is the value of the
pending option, and `closed` that no more options are recognised. -/
structure Reading (δ : Type) where
  draft : δ
  pending : Pending δ
  awaiting : Bool
  closed : Bool
  operands : List (OperandRule δ)

def refused (shown : Text) (value : Bytes) : Refusal → UsageError
  | .empty => .missingValue shown
  | .notUtf8 => .invalidUtf8
  | .because reason => .invalidValue (Utf8.decodeLossy value) shown reason

def takeValue (shown : Text) (take : Taker δ) (value : Bytes) (draft : δ) : Except UsageError δ :=
  (take value draft).mapError (refused shown value)

/-- An option that may not be repeated is refused before its value is looked at. -/
def takeOption (shown : Text) (isSpent : δ → Bool) (take : Taker δ) (value : Bytes) (draft : δ) :
    Except UsageError δ :=
  if isSpent draft then .error (.repeated shown) else takeValue shown take value draft

/-- Gives what was held back its effect. -/
def settle (r : Reading δ) : Except UsageError δ :=
  match r.pending with
  | .nothing => .ok r.draft
  | .option shown _ _ none => .error (.missingValue shown)
  | .option shown isSpent take (some value) => takeOption shown isSpent take value r.draft
  | .operand rule value => takeValue rule.shown rule.take value r.draft

def settled (r : Reading δ) : Except UsageError (Reading δ) :=
  (settle r).map fun draft => { r with draft, pending := .nothing, awaiting := false }

/-- An option that is given, perhaps with a value attached to it. -/
def readOption (r : Reading δ) (o : OptionRule δ) (attached : Option Bytes) :
    Except UsageError (Reading δ) :=
  match o.action, attached with
  | .value take, some value => do
    let r ← settled r
    let draft ← takeOption o.shown o.isSpent take value r.draft
    return { r with draft }
  | .value take, none => do
    let r ← settled r
    return { r with pending := .option o.shown o.isSpent take none, awaiting := true }
  | .switch _, some value => .error (.unexpectedValue (Utf8.decodeLossy value) o.shown)
  | .switch set, none => do
    let r ← settled r
    if o.isSpent r.draft then .error (.repeated o.shown) else return { r with draft := set r.draft }

def halting (result : Except UsageError α) : Except Halt α := result.mapError .error

def dash : UInt8 := 0x2D

def equals : UInt8 := 0x3D

/-- A word after two dashes, cut at its first equals sign. -/
def cutLong (word : Bytes) : Bytes × Option Bytes :=
  match word.dropWhile (· ≠ equals) with
  | [] => (word, none)
  | _ :: value => (word.takeWhile (· ≠ equals), some value)

def helpWord : Text := "help".toList

def helpLetter : Char := 'h'

/-- Whether a word, or a letter, is written with these bytes. -/
def spells (t : Text) (word : Bytes) : Bool := Utf8.encode t == word

def readLong (g : Grammar δ) (r : Reading δ) (word : Bytes) : Except Halt (Reading δ) :=
  let (name, attached) := cutLong word
  match g.options.find? (spells ·.long name) with
  | some o => halting (readOption r o attached)
  | none =>
    if spells helpWord name then
      match attached with
      | some value =>
        .error (.error (.unexpectedValue (Utf8.decodeLossy value) "--help".toList))
      | none => do
        let _ ← halting (settle r)
        .error .help
    else .error (.error (.unexpectedArgument ("--".toList ++ Utf8.decodeLossy name)))

/-- The letter that bytes begin with, as it is shown, or all of them if they begin with none. -/
def firstLetter (letters : Bytes) : Text :=
  match Utf8.decode letters with
  | .char c :: _ => [c]
  | _ => Utf8.decodeLossy letters

/-- Letters after a single dash: switches, and last perhaps an option with its value, which an
equals sign may set off. The letters of options are single bytes. -/
def readLetters (g : Grammar δ) (r : Reading δ) : Bytes → Except Halt (Reading δ)
  | [] => .ok r
  | letter :: rest =>
    match g.options.find? (·.short.any (spells [·] [letter])) with
    | some o =>
      match o.action, rest with
      | .switch _, _ => do
        let r ← halting (readOption r o none)
        readLetters g r rest
      | .value _, [] => halting (readOption r o none)
      | .value _, next :: value =>
        halting (readOption r o (some (if next = equals then value else next :: value)))
    | none =>
      if spells [helpLetter] [letter] then do
        let _ ← halting (settle r)
        .error .help
      else .error (.error (.unexpectedArgument ('-' :: firstLetter (letter :: rest))))

def readOperand (r : Reading δ) (word : Bytes) : Except Halt (Reading δ) :=
  match r.operands with
  | [] => .error (.error (.unexpectedArgument (Utf8.decodeLossy word)))
  | rule :: operands => do
    let r ← halting (settled r)
    return { r with pending := .operand rule word, operands }

/-- The value of the option that waits for one. -/
def readAwaited (r : Reading δ) (word : Bytes) : Reading δ :=
  match r.pending with
  | .option shown isSpent take _ =>
    { r with pending := .option shown isSpent take (some word), awaiting := false }
  | _ => r

/-- What a word is by its look. A lone dash is a value or an operand like any other word. -/
inductive Look where
  | ending
  | long (name : Bytes)
  | letters (letters : Bytes)
  | plain
deriving DecidableEq, Repr

/-- Two dashes alone end the options. -/
def lookOf : Bytes → Look
  | first :: second :: rest =>
    if first ≠ dash then .plain
    else if second ≠ dash then .letters (second :: rest)
    else if rest = [] then .ending
    else .long rest
  | _ => .plain

def readArgument (g : Grammar δ) (r : Reading δ) (word : Bytes) : Except Halt (Reading δ) :=
  if r.closed then readOperand r word
  else
    match lookOf word with
    | .ending => .ok { r with closed := true, awaiting := false }
    | .long name => readLong g r name
    | .letters letters => readLetters g r letters
    | .plain => if r.awaiting then .ok (readAwaited r word) else readOperand r word

/-- Reads all arguments into a draft. -/
def read (g : Grammar δ) (draft : δ) (words : List Bytes) : Except Halt δ := do
  let start : Reading δ := ⟨draft, .nothing, false, false, g.operands⟩
  let r ← words.foldlM (readArgument g) start
  halting (settle r)

end Grammar

end Marginalia
