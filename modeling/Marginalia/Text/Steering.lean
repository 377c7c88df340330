import Marginalia.Text.Utf8
/-!
Codes that steer a terminal, and what a text shows without them. A code opens with an escape
character, and what ends it depends on its kind. Tabs and line breaks in a code are shown all the
same, and so is what follows them, until a control character that is not shown takes the code up
again.
-/

namespace Marginalia.Text

/-- Where a reader of terminal codes stands. -/
inductive Steering where
  /-- Between codes. -/
  | idle
  /-- After an escape character. -/
  | escape
  /-- In a code of an escape character and marks, which a letter or digit ends. -/
  | marks
  /-- In a control sequence, which a letter ends. -/
  | sequence
  /-- At the head of a string to a device, which a letter turns into its data. -/
  | head
  /-- At such a head, after digits. -/
  | headDigits
  /-- At such a head, after marks. -/
  | headMarks
  /-- In a string that a string terminator ends, as a byte of its own or of a character. -/
  | data
  /-- In a command to the terminal, which a bell ends. -/
  | command
deriving DecidableEq, Repr

def isBetween (low high : Nat) (c : Char) : Bool := low ≤ c.toNat && c.toNat ≤ high

/-- The control characters that are shown nevertheless. -/
def isGap (c : Char) : Bool := c == '\t' || c == '\n' || c == '\x0c' || c == '\r'

/-- What is shown outside of codes. -/
def isShown (c : Char) : Bool := !(c.toNat < 0x20 || c.toNat == 0x7F) || isGap c

namespace Steering

/-- After an escape character: most characters end the code at once. -/
def afterEscape (c : Char) : Steering :=
  if c = '[' then .sequence
  else if c = ']' then .command
  else if c = 'P' then .head
  else if c = 'X' ∨ c = '^' ∨ c = '_' then .data
  else if isBetween 0x20 0x2F c then .marks
  else if isBetween 0x30 0x7E c then .idle
  else .escape

/-- The byte that ends strings, which may also be part of a character's bytes. -/
def terminator : UInt8 := 0x9C

/-- Where the reader stands after a character. Every code is left at another escape character, and
at a character that cancels it. -/
def next (s : Steering) (c : Char) : Steering :=
  if c = '\x1b' then .escape
  else if c = '\x18' ∨ c = '\x1a' then .idle
  else
    match s with
    | .idle => .idle
    | .escape => afterEscape c
    | .marks => if isBetween 0x30 0x7E c then .idle else .marks
    | .sequence => if isBetween 0x40 0x7E c then .idle else .sequence
    | .head =>
      if isBetween 0x20 0x2F c then .headMarks
      else if isBetween 0x30 0x3F c then .headDigits
      else if isBetween 0x40 0x7E c then .data
      else .head
    | .headDigits =>
      if isBetween 0x20 0x2F c then .headMarks
      else if isBetween 0x3C 0x7E c then .data
      else .headDigits
    | .headMarks => if isBetween 0x30 0x7E c then .data else .headMarks
    | .data => if terminator ∈ Utf8.encodeChar c then .idle else .data
    | .command => if c = '\x07' then .idle else .command

/-- What is shown at a character: within the codes that are not strings only the gaps are. -/
def shows (s : Steering) (c : Char) : Bool :=
  match s with
  | .idle => isShown c
  | .escape | .marks | .sequence => isGap c
  | .head | .headDigits | .headMarks | .data | .command => false

/-- What is left to wait for after a character that is shown: beyond ASCII a character ends every
code. -/
def afterShown (s : Steering) (c : Char) : Steering := if c.toNat < 0x80 then s else .idle

end Steering

/-- What a text shows to a reader who stands in a code. `inShown` says that the last character was
shown: then the code waits, and shown characters pass. -/
def stripFrom (inShown : Bool) (s : Steering) : Text → Text
  | [] => []
  | c :: rest =>
    if (if inShown then Steering.idle else s).shows c then
      c :: stripFrom true (s.afterShown c) rest
    else stripFrom false (s.next c) rest

/-- A text without what would steer a terminal. -/
def strip (t : Text) : Text := stripFrom false .idle t

theorem stripFrom_of_shown {s : Steering} {t : Text} (h : ∀ c ∈ t, isShown c = true) :
    stripFrom true s t = t := by
  induction t generalizing s with
  | nil => rfl
  | cons c rest ih =>
    have hc : isShown c = true := h c List.mem_cons_self
    simp [stripFrom, Steering.shows, hc, ih fun d hd => h d (List.mem_cons_of_mem _ hd)]

/-- A text of shown characters is left as it is. -/
theorem strip_of_shown {t : Text} (h : ∀ c ∈ t, isShown c = true) : strip t = t := by
  cases t with
  | nil => rfl
  | cons c rest =>
    have hc : isShown c = true := h c List.mem_cons_self
    simp [strip, stripFrom, Steering.shows, hc,
      stripFrom_of_shown fun d hd => h d (List.mem_cons_of_mem _ hd)]

end Marginalia.Text
