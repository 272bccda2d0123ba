import LayoutLint.Failure
import LayoutLint.Glob.Pattern
import LayoutLint.Json.Value
import LayoutLint.Options
import LayoutLint.Path
import LayoutLint.Registry
/-!
# Config — what linting is told for a project

A configuration switches rules off, gives them severities, and sets options, for all files or for the files that a
pattern matches; of several overrides for one file the last counts. It holds the patterns of its overrides beside them,
read once. To an analysis it is a provider of options like any other.
-/
namespace LayoutLint

/-- What a configuration says of a rule. -/
inductive RuleOption where
  | enabled (on : Bool)
  /-- The name of a severity, or `off`. -/
  | named (severity : String)
  /-- An object, which may have a member `severity`. It never switches a rule off. -/
  | detailed (value : JsonValue)

namespace RuleOption

def isEnabled : RuleOption → Bool
  | enabled on => on
  | named severity => severity != "off"
  | detailed _ => true

def severity? : RuleOption → Option Severity
  | enabled _ => none
  | named severity => Severity.ofName? severity
  | detailed value => (value.member? "severity").bind (·.string?) |>.bind Severity.ofName?

end RuleOption

/-- Options for the files that a pattern matches. -/
structure ConfigOverride where
  files : String
  maxLineLength : Option Nat := none
  deriving DecidableEq, Repr

structure Config where
  /-- What is said of rules, by their ids. -/
  options : List (String × RuleOption) := []
  maxLineLength : Nat := maxLineLengthOption.default
  extensionMethods : List String := []
  /-- Patterns for the files to lint; without any, all files. -/
  included : List String := []
  /-- Patterns for the files to leave alone. -/
  excluded : List String := []
  overrides : List ConfigOverride := []
  /-- The patterns of the overrides. -/
  overrideGlobs : List Glob := []
  timings : Bool := false
  /-- The directory that relative paths start from. -/
  baseDirectory : Option String := none

namespace Config

/-- The files that may hold the configuration of a directory, the first that there is. -/
def fileNames : List String := [".trivialint.jsonc", ".trivialint.json"]

/-- The patterns of overrides. -/
def readGlobs (overrides : List ConfigOverride) : Except ConfigError (List Glob) :=
  overrides.mapM fun o =>
    match Glob.ofText? o.files with
    | some g => .ok g
    | none => .error (.invalidOverrideGlob o.files)

/-- The configuration with the patterns of its overrides read. -/
def withGlobs (c : Config) : Except ConfigError Config :=
  (readGlobs c.overrides).map fun globs => { c with overrideGlobs := globs }

/-- The configuration after an override was added at the end, and what was wrong with its patterns. The override stays
even where its pattern is bad; the patterns are then those from before. -/
def pushOverride (c : Config) (o : ConfigOverride) : Config × Option ConfigError :=
  let c := { c with overrides := c.overrides ++ [o] }
  match c.withGlobs with
  | .ok c => (c, none)
  | .error e => (c, some e)

/-- Is a rule on? Rules of which nothing is said are. -/
def isEnabled (c : Config) (ruleId : String) : Bool := (c.options.lookup ruleId).all (·.isEnabled)

def severity (c : Config) (ruleId : String) : Severity := ((c.options.lookup ruleId).bind (·.severity?)).getD .error

/-- Does a pattern match a file: by its path, by its path from the base directory, or by its name? -/
def isMatch (c : Config) (g : Glob) (path : String) : Bool :=
  g.isMatch path || ((c.baseDirectory.bind (Path.relativeTo? · path)).any g.isMatch) ||
    (Path.fileName? path).any g.isMatch

/-- The overrides for a file, in their order. Without a path there are none. -/
def overridesFor (c : Config) (path : Option String) : List ConfigOverride :=
  match path with
  | none => []
  | some path => ((c.overrides.zip c.overrideGlobs).filter fun (_, g) => c.isMatch g path).map (·.1)

/-- The largest number of characters of a line in a file. -/
def maxLineLengthFor (c : Config) (path : Option String) : Nat :=
  ((c.overridesFor path).filterMap (·.maxLineLength)).getLast?.getD c.maxLineLength

/-- The configuration as a provider of options. -/
def provider (c : Config) : OptionProvider := fun path key =>
  if key == maxLineLengthOption.key then some (toString (c.maxLineLengthFor path))
  else if key == extensionMethodsOption.key then
    if c.extensionMethods.isEmpty then none else some (",".intercalate c.extensionMethods)
  else none

/-- The rules of this library that are on, with their severities. -/
def registry (c : Config) : Registry :=
  ⟨(builtinRules.filter fun rule => c.isEnabled rule.id).map fun rule => { rule, severity := c.severity rule.id }⟩

end Config

end LayoutLint
