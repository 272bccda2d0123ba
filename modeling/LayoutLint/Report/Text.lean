import LayoutLint.Registry
import LayoutLint.Config
import LayoutLint.Report
/-!
# Text — results for people to read

A line for each violation and a summary, a list of the files that were mended, and the list of rules. Columns count from
one.
-/
namespace LayoutLint

/-- Lines as text, each with its line break. -/
def unlines (lines : List String) : String := String.join (lines.map (· ++ "\n"))

/-- A text with `c` after it up to a width. -/
def padRight (c : Char) (width : Nat) (s : String) : String := s.pushn c (width - s.length)

/-- What is said of severities other than that of errors. -/
def Severity.tag : Severity → String
  | error => ""
  | warning => " (warning)"
  | info => " (info)"

/-- A violation with its place, or with the place `0:0` where that is not known. -/
def Violation.line (v : Violation) : String :=
  let (line, column) := (v.location.map fun l => (l.start.line, l.start.column + 1)).getD (0, 0)
  s!"{line}:{column} {v.ruleId}: {v.message}{v.severity.tag}"

/-- The violations of files, and their summary. -/
def resultsText (results : List FileResult) : String :=
  let s := Summary.ofResults results
  let found := results.flatMap fun r => r.violations.map fun v => s!"{r.path}:{v.line}"
  unlines <| found ++
    ["", s!"Checked {s.filesChecked} files, found {s.totalViolations} issues in {s.filesWithViolations} files"]

/-- The files that were mended, or would be if it were not a dry run. `anyFailed` tells of files that failed. -/
def fixesText (results : List FileResult) (anyFailed dryRun : Bool) : String :=
  let mended := results.filter (0 < ·.fixesApplied)
  let count := total (mended.map (·.fixesApplied))
  let action := if dryRun then "Would fix" else "Fixed"
  if 0 < count then
    unlines <|
      ["", s!"{action} {count} issues in {mended.length} files:"] ++
      (mended.map fun r => s!"  {r.path}: {r.fixesApplied} fixes") ++
      if dryRun then ["", "Run without --dry-run to apply fixes."] else []
  else if anyFailed then ""
  else unlines ["No fixable issues found."]

/-- A line of the list of rules. -/
def ruleRow (c : Char) (id status fixable description : String) : String :=
  " ".intercalate [padRight c 32 id, padRight c 8 status, padRight c 8 fixable, description]

/-- The rules of this library, with what a configuration makes of them. -/
def rulesText (config : Config) : String :=
  let row (rule : Rule) :=
    ruleRow ' ' rule.id (if config.isEnabled rule.id then (config.severity rule.id).name else "off")
      (if rule.fixable then "yes" else "no") rule.description
  unlines <|
    ruleRow ' ' "Rule" "Status" "Fixable" "Description" :: ruleRow '-' "" "" "" "-----------" :: builtinRules.map row

end LayoutLint
