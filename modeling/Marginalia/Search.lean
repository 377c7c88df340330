import Marginalia.Failure
/-!
Searching lines for a term, letter for letter. Occurrences in a line do not overlap: each one found
is passed over whole before the next is looked for.
-/

namespace Marginalia

structure Hit where
  line : Nat
  count : Nat
deriving DecidableEq, Repr

/-- A term and the lines it was found in. -/
structure Findings where
  term : Text
  hits : List Hit
deriving DecidableEq, Repr

namespace Search

/-- The occurrences of a term in a line, once `skip` more characters have been passed over. -/
def occurrencesAfter (term : Text) : Nat → Text → Nat
  | _, [] => 0
  | skip + 1, _ :: rest => occurrencesAfter term skip rest
  | 0, c :: rest =>
    if term.isPrefixOf (c :: rest) then occurrencesAfter term (term.length - 1) rest + 1
    else occurrencesAfter term 0 rest

def occurrences (term line : Text) : Nat := occurrencesAfter term 0 line

def hitsAt (term line : Text) (number : Nat) : List Hit :=
  if occurrences term line = 0 then [] else [⟨number, occurrences term line⟩]

/-- The hits in lines that are numbered from `first` on. -/
def hitsFrom (term : Text) (first : Nat) (lines : List Text) : List Hit :=
  (lines.zipIdx first).flatMap fun (line, number) => hitsAt term line number

end Search

/-- An empty term would be found everywhere, and is refused. -/
def search (lines : List Text) (term : Text) : Except Failure Findings :=
  if term = [] then .error .emptyTerm else .ok ⟨term, Search.hitsFrom term 1 lines⟩

namespace Findings

def total (f : Findings) : Nat := f.hits.foldr (·.count + ·) 0

def hitText (h : Hit) : Text :=
  Text.line ["Line ".toList, Text.decimal h.line, ": ".toList, Text.decimal h.count,
    " occurrence(s)".toList]

def render (f : Findings) : Text :=
  if f.total = 0 then Text.line ["No occurrences found for '".toList, f.term, "'.".toList]
  else
    Text.line ["Search results for '".toList, f.term, "':".toList] ++
    f.hits.flatMap hitText ++
    Text.line [] ++
    Text.line ["Total occurrences: ".toList, Text.decimal f.total]

end Findings

end Marginalia
