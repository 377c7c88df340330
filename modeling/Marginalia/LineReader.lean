import Marginalia.Text.Utf8
/-!
Reading lines from a source of bytes that arrive in chunks. How the bytes are cut into chunks, and
reads that are interrupted and tried again, leave no trace in the lines.
-/

namespace Marginalia

/-- What one read gives. An empty chunk is the end of the file, for that read. -/
inductive ReadEvent (ε : Type) where
  | chunk (bytes : Bytes)
  | interrupted
  | failed (e : ε)
deriving DecidableEq, Repr

namespace LineReader

variable {ε : Type}

def lineFeed : UInt8 := 0x0A

/-- The text of a line's bytes, without the returns it ends in. -/
def lineText (bytes : Bytes) : Text := Text.dropEndWhile (· == '\r') (Utf8.decodeLossy bytes)

/-- The stretches of some bytes that a line feed ends. -/
def finished (bytes : Bytes) : List Bytes := (bytes.splitOn lineFeed).dropLast

/-- The stretch after the last line feed. -/
def unfinished (bytes : Bytes) : Bytes := (bytes.splitOn lineFeed).getLastD []

/-- The items that a reader gives which holds the start `held` of a line. A failed read drops what
is held; the end of the file ends the reading only if nothing is. -/
def itemsFrom (held : Bytes) : List (ReadEvent ε) → List (Except ε Text)
  | [] => if held = [] then [] else [.ok (lineText held)]
  | .interrupted :: events => itemsFrom held events
  | .failed e :: events => .error e :: itemsFrom [] events
  | .chunk [] :: events => if held = [] then [] else .ok (lineText held) :: itemsFrom [] events
  | .chunk (b :: rest) :: events =>
    (finished (held ++ b :: rest)).map (.ok ∘ lineText) ++
      itemsFrom (unfinished (held ++ b :: rest)) events

def items (events : List (ReadEvent ε)) : List (Except ε Text) := itemsFrom [] events

/-- All the lines, or the first failure. -/
def readLines (events : List (ReadEvent ε)) : Except ε (List Text) := (items events).mapM id

/-- The lines of bytes that are at hand as a whole. -/
def linesOf (bytes : Bytes) : List Text :=
  let last := if unfinished bytes = [] then [] else [unfinished bytes]
  (finished bytes ++ last).map lineText

end LineReader

end Marginalia
