import LayoutLint.Total
import LayoutLint.Violation
/-!
# Report — what linting or mending files comes to

For each file there is a result with the violations that are left and the number of fixes that were made; a summary adds
them up.
-/
namespace LayoutLint

/-- What was found in a file. -/
structure FileResult where
  path : String
  violations : List Violation
  /-- The number of edits made before the violations were found. -/
  fixesApplied : Nat := 0
  deriving DecidableEq, Repr

/-- The number of violations that are errors. -/
def FileResult.errorCount (r : FileResult) : Nat := r.violations.countP (·.severity == .error)

structure Summary where
  filesChecked : Nat
  totalViolations : Nat
  filesWithViolations : Nat
  fixesApplied : Nat
  deriving DecidableEq, Repr

def Summary.ofResults (results : List FileResult) : Summary where
  filesChecked := results.length
  totalViolations := total (results.map (·.violations.length))
  filesWithViolations := results.countP (!·.violations.isEmpty)
  fixesApplied := total (results.map (·.fixesApplied))

end LayoutLint
