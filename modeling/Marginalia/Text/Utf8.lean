import Marginalia.Text.Blank
/-!
Bytes and the characters they stand for. Decoding runs an automaton over the bytes and gives one
item for each character and one for each ill-formed run of bytes, so that strict reading, forgiving
reading and quoting share one definition.
-/

namespace Marginalia

/-- The contents of a file, or a path, as the system holds them. -/
abbrev Bytes := List UInt8

namespace Utf8

inductive Item where
  | char (c : Char)
  | broken (run : Bytes)
deriving DecidableEq, Repr

/-- Where the automaton stands: before a character, or inside one after the bytes `seen`, of value
`code` so far, whose next byte lies between `low` and `high`, with `more` bytes after that one. -/
inductive State where
  | start
  | inside (seen : Bytes) (low high more code : Nat)
deriving DecidableEq, Repr

/-- The first byte of a character. The bounds on the second byte keep out overlong forms, the
surrogates and values above the last character. -/
def lead (b : UInt8) : State × List Item :=
  let n := b.toNat
  if n < 0x80 then (.start, [.char (Char.ofNat n)])
  else if n < 0xC2 then (.start, [.broken [b]])
  else if n < 0xE0 then (.inside [b] 0x80 0xBF 0 (n - 0xC0), [])
  else if n < 0xF0 then
    let low := if n = 0xE0 then 0xA0 else 0x80
    let high := if n = 0xED then 0x9F else 0xBF
    (.inside [b] low high 1 (n - 0xE0), [])
  else if n < 0xF5 then
    let low := if n = 0xF0 then 0x90 else 0x80
    let high := if n = 0xF4 then 0x8F else 0xBF
    (.inside [b] low high 2 (n - 0xF0), [])
  else (.start, [.broken [b]])

/-- A byte that cannot go on with a character ends an ill-formed run and is read afresh. -/
def step : State → UInt8 → State × List Item
  | .start, b => lead b
  | .inside seen low high more code, b =>
    if low ≤ b.toNat ∧ b.toNat ≤ high then
      let code := code * 64 + (b.toNat - 0x80)
      match more with
      | 0 => (.start, [.char (Char.ofNat code)])
      | more + 1 => (.inside (seen ++ [b]) 0x80 0xBF more code, [])
    else ((lead b).1, .broken seen :: (lead b).2)

/-- What is left when the bytes end: an unfinished character is ill-formed. -/
def finish : State → List Item
  | .start => []
  | .inside seen .. => [.broken seen]

def decodeFrom : State → Bytes → List Item
  | state, [] => finish state
  | state, b :: rest => (step state b).2 ++ decodeFrom (step state b).1 rest

/-- The characters of some bytes, and each longest ill-formed run among them. -/
def decode (bytes : Bytes) : List Item := decodeFrom .start bytes

def Item.char? : Item → Option Char
  | .char c => some c
  | .broken _ => none

/-- Every ill-formed run becomes one replacement character. -/
def decodeLossy (bytes : Bytes) : Text := (decode bytes).map (·.char?.getD '\uFFFD')

/-- The text of well-formed bytes, and nothing for any others. -/
def decode? (bytes : Bytes) : Option Text := (decode bytes).mapM Item.char?

def encodeChar (c : Char) : Bytes :=
  let n := c.toNat
  let continuation (k : Nat) : UInt8 := .ofNat (0x80 + k % 64)
  if n < 0x80 then [.ofNat n]
  else if n < 0x800 then [.ofNat (0xC0 + n / 64), continuation n]
  else if n < 0x10000 then [.ofNat (0xE0 + n / 4096), continuation (n / 64), continuation n]
  else [.ofNat (0xF0 + n / 262144), continuation (n / 4096), continuation (n / 64), continuation n]

def encode (t : Text) : Bytes := t.flatMap encodeChar

theorem map_getD_of_mapM {items : List Item} {t : Text} (h : items.mapM Item.char? = some t) :
    items.map (·.char?.getD '\uFFFD') = t := by
  induction items generalizing t with
  | nil => simpa using h
  | cons item items ih =>
    simp only [List.mapM_cons, Option.pure_def, Option.bind_eq_bind, Option.bind_eq_some_iff,
      Option.some.injEq] at h
    obtain ⟨c, hc, u, hu, rfl⟩ := h
    simp [hc, ih hu]

/-- The two readings agree wherever the strict one succeeds. -/
theorem decodeLossy_of_decode? {bytes : Bytes} {t : Text} (h : decode? bytes = some t) :
    decodeLossy bytes = t :=
  map_getD_of_mapM h

end Utf8

end Marginalia
