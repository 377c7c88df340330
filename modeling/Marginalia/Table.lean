import Marginalia.Summary
import Marginalia.Text.Ink
/-!
The table of a scan: a row for each file, its path in a column of a given width, and a row of
totals. A path that is too long for its column keeps its end.
-/

namespace Marginalia.Table

/-- The width of the path column where no terminal tells another one. -/
def defaultWidth : Nat := 40

def typeWidth : Nat := 8

def numberWidth : Nat := 8

/-- The width of everything that stands right of the path. -/
def fixedWidth : Nat := typeWidth + 1 + 6 * (numberWidth + 1)

/-- The last characters of a text that is longer than `width`, after three dots. -/
def keepEnd (width : Nat) (t : Text) : Text :=
  if t.length ≤ width then t else "...".toList ++ t.drop (t.length - (width - 3))

/-- A path below the root of a scan; the root itself goes by its name. -/
def shownPath (p root : Path) : Text :=
  match p.relativeTo? root with
  | some rest =>
    if rest.bytes = [] then ((p.fileName?.map Utf8.decodeLossy).getD ['.']) else rest.display
  | none => p.display

/-- A row of the table; `label` has been made to fit already. -/
def row (width : Nat) (label fileType : Text) (cells : List Text) : Text :=
  Text.spaced
    (Text.left width label :: Text.left typeWidth fileType :: cells.map (Text.right numberWidth))

def header (width : Nat) : Text :=
  row width "Path".toList "Type".toList
    ["Lines".toList, "Blank".toList, "Comment".toList, "Code".toList, "TODO".toList, "FIXME".toList]

/-- The six numbers of a row. -/
def numbers (c : Counts) : List Nat := [c.total, c.blank, c.comment, c.code, c.todo, c.fixme]

def cells (c : Counts) : List Text := (numbers c).map Text.decimal

def rule (width : Nat) : Text := List.replicate (width + fixedWidth) '-'

def fileRow (width : Nat) (root : Path) (p : Path) (r : Report) : Text :=
  row width (keepEnd width (shownPath p root)) (FileType.shownToken r.fileType) (cells r.counts)

def totalLabel (s : Summary) : Text :=
  "Total (".toList ++ Text.decimal s.files.length ++ " files)".toList

def totalRow (width : Nat) (s : Summary) : Text := row width (totalLabel s) [] (cells s.totals)

/-- The lines of the table, from the rule above the header to the totals. -/
def rows (width : Nat) (root : Path) (s : Summary) : List Text :=
  [rule width, header width, rule width] ++ s.files.map (fun (p, r) => fileRow width root p r) ++
    [rule width, totalRow width s]

def warningLines (ink : Ink) (s : Summary) : Text :=
  if s.warnings = 0 then []
  else
    Text.line [] ++ Text.line [ink.paint .alarm "Warnings".toList, ": ".toList,
      ink.paint .figure (Text.decimal s.warnings)]

def render (ink : Ink) (width : Nat) (root : Path) (s : Summary) : Text :=
  Text.line [] ++ Text.line ["Per-file analysis:".toList] ++
    (rows width root s).flatMap (Text.line [·]) ++ warningLines ink s

end Marginalia.Table
