import Marginalia.Report
/-!
The reports of many files side by side.
-/

namespace Marginalia

/-- The reports of a scan, and the number of things it could not read. -/
structure Summary where
  files : List (Path × Report)
  warnings : Nat
deriving DecidableEq, Repr

/-- The column sums over all files. -/
def Summary.totals (s : Summary) : Counts := Counts.sum (s.files.map (·.2.counts))

end Marginalia
