import LayoutLint.Json.Value
import LayoutLint.Report
/-!
# Data — results as JSON

Members stand in a fixed order. A place that is not known and a number of fixes that is zero are left out.
-/
namespace LayoutLint

def Span.toJson (s : Span) : JsonValue := .object [("start", .ofNat s.start), ("end", .ofNat s.stop)]

def Position.toJson (p : Position) : JsonValue := .object [("line", .ofNat p.line), ("column", .ofNat p.column)]

def Location.toJson (l : Location) : JsonValue := .object [("start", l.start.toJson), ("end", l.stop.toJson)]

def Violation.toJson (v : Violation) : JsonValue :=
  .object <|
    [("rule_id", .string v.ruleId), ("message", .string v.message), ("span", v.span.toJson)] ++
    (v.location.map fun l => ("loc", l.toJson)).toList ++ [("severity", .string v.severity.name)]

def FileResult.toJson (r : FileResult) : JsonValue :=
  .object <|
    [("path", .string r.path), ("violations", .array (r.violations.map (·.toJson)))] ++
    if r.fixesApplied = 0 then [] else [("fixes_applied", .ofNat r.fixesApplied)]

/-- The results of several files. -/
def resultsJson (results : List FileResult) : JsonValue := .array (results.map (·.toJson))

end LayoutLint
