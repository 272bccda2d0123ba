import LayoutLint.Json.Printer
import LayoutLint.Registry
import LayoutLint.Report
/-!
# Sarif — results in the Static Analysis Results Interchange Format

A log of version 2.1.0 with one run. The run lists the rules that were broken, by their ids in order and with their
descriptions where they are rules of this library, and a result for each violation. Columns count from one here.
-/
namespace LayoutLint

/-- The name and version under which the program reports. -/
def toolName : String := "trivialint"

def toolVersion : String := "0.1.0"

namespace Sarif

def schemaAddress : String :=
  "https://raw.githubusercontent.com/oasis-tcs/sarif-spec/master/Schemata/sarif-schema-2.1.0.json"

def level : Severity → String
  | .error => "error"
  | .warning => "warning"
  | .info => "note"

/-- A text in an object of its own. -/
def message (text : String) : JsonValue := .object [("text", .string text)]

/-- A rule, given by its id. -/
def descriptor (id : String) : JsonValue :=
  let rule := builtinRules.find? (·.id == id)
  .object <|
    [("id", .string id), ("name", .string id)] ++
    (rule.map fun rule => ("shortDescription", message rule.description)).toList

def region (l : Location) : JsonValue :=
  .object [("startLine", .ofNat l.start.line), ("startColumn", .ofNat (l.start.column + 1)),
    ("endLine", .ofNat l.stop.line), ("endColumn", .ofNat (l.stop.column + 1))]

/-- The path of a file as an address, with slashes for backslashes. -/
def address (path : String) : String := path.map fun c => if c == '\\' then '/' else c

def result (path : String) (v : Violation) : JsonValue :=
  let place : JsonValue :=
    .object (("artifactLocation", .object [("uri", .string (address path))]) ::
      (v.location.map fun l => ("region", region l)).toList)
  .object [("ruleId", .string v.ruleId), ("level", .string (level v.severity)), ("message", message v.message),
    ("locations", .array [.object [("physicalLocation", place)]])]

/-- The ids of the rules that were broken, in order. -/
def brokenRules (results : List FileResult) : List String :=
  (results.flatMap fun r => r.violations.map (·.ruleId)).eraseDups.mergeSort (· ≤ ·)

def log (results : List FileResult) : JsonValue :=
  let rules := (brokenRules results).map descriptor
  let driver : JsonValue :=
    .object ([("name", .string toolName), ("version", .string toolVersion)] ++
      if rules.isEmpty then [] else [("rules", .array rules)])
  let found := results.flatMap fun r => r.violations.map (result r.path)
  let run : JsonValue := .object [("tool", .object [("driver", driver)]), ("results", .array found)]
  .object [("$schema", .string schemaAddress), ("version", .string "2.1.0"), ("runs", .array [run])]

/-- The log as text. -/
def text (results : List FileResult) : String := (log results).pretty

end Sarif

end LayoutLint
