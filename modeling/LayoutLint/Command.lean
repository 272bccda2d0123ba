import LayoutLint.Command.Arguments
import LayoutLint.Config.File
import LayoutLint.Project
import LayoutLint.Report.Data
import LayoutLint.Report.Sarif
import LayoutLint.Report.Text
/-!
# Command — the program on the command line

There are three commands: one that lints or mends files, one that lists the rules, and one that writes a configuration
to start with. Running a command is a function of the files and the words given: it says what is printed, with which
code the program ends, and how it leaves the files. The code is 0 when all is well, 1 when errors are left or files
failed, and 2 when the command cannot be run.
-/
namespace LayoutLint

inductive OutputFormat where
  | text
  | json
  | sarif
  deriving DecidableEq, Repr

namespace OutputFormat

def ofName? : String → Option OutputFormat
  | "text" => some text
  | "json" => some json
  | "sarif" => some sarif
  | _ => none

end OutputFormat

/-- How files are to be linted. -/
structure LintSettings where
  patterns : List String
  format : OutputFormat := .text
  fix : Bool := false
  dryRun : Bool := false
  timings : Bool := false
  /-- The length that no line may be longer than, whatever the configuration says. -/
  maxLineLength : Option Nat := none

inductive Command where
  | lint (settings : LintSettings)
  | rules
  /-- Writes a configuration; `force` lets it take the place of another. -/
  | init (force : Bool)

/-- A command with the file that its configuration is in, if one is named. -/
structure Invocation where
  command : Command
  configFile : Option String := none

namespace Invocation

/-- The options that are known everywhere. -/
def commonForms : List OptionForm :=
  [⟨"config", some 'c', true⟩, ⟨"verbose", some 'v', false⟩, ⟨"help", some 'h', false⟩]

def lintForms : List OptionForm :=
  [⟨"format", some 'f', true⟩, ⟨"fix", none, false⟩, ⟨"dry-run", none, false⟩, ⟨"timings", none, false⟩,
   ⟨"max-line-length", none, true⟩]

/-- The largest length that can be asked for. -/
def maxLength : Nat := 4294967295

/-- The length that a value gives. -/
def lengthOf? (value : String) : Option Nat := (readNumber value.toList).filter fun n => 0 < n && n ≤ maxLength

/-- The settings that options and operands give. -/
def lintSettings? (g : Given) : Option LintSettings := do
  if g.operands.isEmpty || (g.has "dry-run" && !g.has "fix") then none
  let format ← match g.options.lookup "format" with
    | none => some .text
    | some name => OutputFormat.ofName? name
  let maxLineLength ← match g.options.lookup "max-line-length" with
    | none => some none
    | some value => (lengthOf? value).map some
  return {
    patterns := g.operands
    format
    fix := g.has "fix"
    dryRun := g.has "dry-run"
    timings := g.has "timings"
    maxLineLength }

def commandNames : List String := ["lint", "rules", "init", "help"]

/-- The command with a name, given the words after it. -/
def readCommand (name : String) (words : List String) : Except Refusal (Command × Given) := do
  match name with
  | "lint" =>
    let (g, _) ← readWords (lintForms ++ commonForms) false {} words
    match lintSettings? g with
    | some settings => return (.lint settings, g)
    | none => .error .wrongUsage
  | "rules" =>
    let (g, _) ← readWords commonForms false {} words
    if g.operands.isEmpty then return (.rules, g) else .error .wrongUsage
  | "init" =>
    let (g, _) ← readWords (⟨"force", none, false⟩ :: commonForms) false {} words
    if g.operands.isEmpty then return (.init (g.has "force"), g) else .error .wrongUsage
  | "help" =>
    .error (if words.isEmpty || words.length == 1 && words.all commandNames.contains then .askedHelp else .wrongUsage)
  | _ => .error .wrongUsage

/-- The command that a command line asks for. A configuration named after the command counts before one named in front
of it. -/
def ofWords (words : List String) : Except Refusal Invocation := do
  let (front, rest) ← readWords (⟨"version", some 'V', false⟩ :: commonForms) true {} words
  match rest with
  | [] => .error .wrongUsage
  | name :: rest =>
    let (command, g) ← readCommand name rest
    return { command, configFile := (g.options.lookup "config").or (front.options.lookup "config") }

end Invocation

/-- The configuration with what the settings say of all files. -/
def LintSettings.apply (s : LintSettings) (c : Config) : Except Failure Config :=
  let c := { c with timings := c.timings || s.timings }
  match s.maxLineLength with
  | none => .ok c
  | some n =>
    match c.pushOverride { files := "**", maxLineLength := some n } with
    | (c, none) => .ok c
    | (_, some cause) => .error (.config cause)

/-- What was found, in the format that is asked for. -/
def LintSettings.output (s : LintSettings) (r : FilesReport) : String :=
  match s.format with
  | .sarif => unlines [Sarif.text r.results]
  | .json => unlines [(resultsJson r.results).pretty]
  | .text =>
    (if s.fix then fixesText r.results (!r.failures.isEmpty) s.dryRun else "") ++ resultsText r.results

/-- How a command ends. -/
structure CommandResult where
  exitCode : Nat
  output : String
  tree : FileTree

namespace Command

/-- What a new configuration says. -/
def initialText : String := unlines [
  "\x7b",
  "  // \"off\", \"info\", \"warning\", \"error\" or true / false per rule id",
  "  \"options\": \x7b\x7d,",
  "  \"max_line_length\": " ++ toString maxLineLengthOption.default ++ ",",
  "  \"extension_methods\": [],",
  "  \"exclude\": [],",
  "  \"overrides\": []",
  "\x7d"]

/-- The configuration that is in force: that in the file named, or that of the directory the program runs in. -/
def configFor (t : FileTree) (configFile : Option String) : Except Failure Config :=
  (configFile.elim (Config.ofDirectory t ".") (Config.ofFile t)).mapError .config

/-- Lints or mends files. -/
def runLint (t : FileTree) (configFile : Option String) (s : LintSettings) : Except Failure CommandResult := do
  let config ← s.apply (← configFor t configFile)
  let linter ← Linter.ofConfig config
  let paths ← linter.discover t s.patterns
  let (report, tree) ←
    if s.fix then linter.fixFiles s.dryRun t paths
    else do pure (← linter.lintFiles t paths, t)
  let failed := report.results.any (0 < ·.errorCount) || !report.failures.isEmpty
  return { exitCode := if failed then 1 else 0, output := s.output report, tree }

/-- Writes a configuration, unless there is one and it must not be replaced; `none` when it is not written. -/
def runInit (t : FileTree) (force : Bool) : Option FileTree :=
  let names := Config.fileNames.take 1
  if t.isDirectory names || ((t.file? names).isSome && !force) then none
  else some (t.write names initialText.toUTF8)

/-- Runs a command; `none` when it cannot be run. -/
def run (t : FileTree) (i : Invocation) : Option CommandResult :=
  match i.command with
  | .lint settings => (runLint t i.configFile settings).toOption
  | .rules => (configFor t i.configFile).toOption.map fun config => ⟨0, rulesText config, t⟩
  | .init force => (runInit t force).map fun tree => ⟨0, "", tree⟩

/-- How the program is used. -/
def usage : String := unlines [
  "Usage: " ++ toolName ++ " [-c <config>] [-v] <command>",
  "",
  "Commands:",
  "  lint [-f text|json|sarif] [--fix [--dry-run]] [--timings] [--max-line-length <n>] <patterns>",
  "  rules",
  "  init [--force]"]

/-- Runs the program with the words of its command line. -/
def runWords (t : FileTree) (words : List String) : CommandResult :=
  match Invocation.ofWords words with
  | .error .wrongUsage => ⟨2, "", t⟩
  | .error .askedVersion => ⟨0, unlines [toolName ++ " " ++ toolVersion], t⟩
  | .error .askedHelp => ⟨0, usage, t⟩
  | .ok invocation => (run t invocation).getD ⟨2, "", t⟩

end Command

end LayoutLint
