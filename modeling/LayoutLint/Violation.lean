import LayoutLint.Span
/-!
# Violation — a place where a rule is broken
-/
namespace LayoutLint

inductive Severity where
  | error
  | warning
  | info
  deriving DecidableEq, Repr

namespace Severity

/-- The severity with a name. The word `off` names none. -/
def ofName? : String → Option Severity
  | "error" => some error
  | "warning" => some warning
  | "info" => some info
  | _ => none

def name : Severity → String
  | error => "error"
  | warning => "warning"
  | info => "info"

end Severity

structure Violation where
  ruleId : String
  message : String
  span : Span
  /-- The lines and columns of the span, where they are known. -/
  location : Option Location := none
  severity : Severity := .error
  deriving DecidableEq, Repr

/-- Violations in the order of their spans, and of their rules where they have the same span. -/
def Violation.le (v w : Violation) : Bool := if v.span = w.span then v.ruleId ≤ w.ruleId else v.span.le w.span

end LayoutLint
