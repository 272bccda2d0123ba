import LayoutLint.Config
import LayoutLint.FileFilter
import LayoutLint.Fix
/-!
# Linter — linting and mending under a configuration

A linter is a configuration made ready: the rules that are on, and the patterns that choose files. It analyzes and mends
texts; the path of a text, where it has one, decides which options hold for it.
-/
namespace LayoutLint

structure Linter where
  config : Config
  registry : Registry
  filter : FileFilter
  /-- The work has been called off. -/
  cancelled : Bool := false

namespace Linter

/-- The linter for a configuration. -/
def ofConfig (config : Config) (cancelled : Bool := false) : Except Failure Linter :=
  match FileFilter.ofPatterns config.included config.excluded with
  | .error cause => .error (.config cause)
  | .ok filter => .ok { config, registry := config.registry, filter, cancelled }

/-- The options for a file. -/
def optionsFor (l : Linter) (path : Option String) : AnalyzerOptions := .resolve l.config.provider path

/-- The violations of a text. -/
def lint (l : Linter) (source : String) (path : Option String) : Except Failure (List Violation) :=
  (l.registry.read (l.optionsFor path) l.cancelled source).map (·.violations)

/-- A text mended. -/
def fix (l : Linter) (source : String) (path : Option String) : Except Failure FixReport :=
  (l.registry.fixSystem (l.optionsFor path) l.cancelled).fix defaultRounds source

/-- The rules of which linting a text takes the time, in the order of their ids. There are none unless the configuration
asks for them. -/
def timedRules (l : Linter) (source : String) : List String :=
  if l.config.timings then
    match Program.parse source with
    | .ok p => (l.registry.rulesRun p.tree).mergeSort (· ≤ ·)
    | .error _ => []
  else []

end Linter

end LayoutLint
