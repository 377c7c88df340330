import Marginalia.Text.Hidden
import Marginalia.Text.Utf8
/-!
Bytes between double quotes, with everything escaped that could not be told apart on a terminal.
-/

namespace Marginalia.Text.Quoted

/-- A single quote needs no escape between double ones. -/
def escape (c : Char) : Text :=
  if c = '"' ∨ c = '\\' then ['\\', c]
  else if c = '\n' then ['\\', 'n']
  else if c = '\t' then ['\\', 't']
  else if c = '\r' then ['\\', 'r']
  else if c.toNat = 0 then ['\\', '0']
  else if isHidden c then ['\\', 'u', '\x7b'] ++ Nat.toDigits 16 c.toNat ++ ['\x7d']
  else [c]

/-- A byte in two capital hexadecimal digits. -/
def byte (b : UInt8) : Text :=
  ['\\', 'x'] ++
    (Nat.toDigits 16 (b.toNat / 16) ++ Nat.toDigits 16 (b.toNat % 16)).map Char.toUpper

def item : Utf8.Item → Text
  | .char c => escape c
  | .broken run => run.flatMap byte

def quote (bytes : Bytes) : Text := '"' :: (Utf8.decode bytes).flatMap item ++ ['"']

end Marginalia.Text.Quoted
