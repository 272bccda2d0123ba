import LayoutLint.Rule.Gaps
import LayoutLint.Rule.Lines
import LayoutLint.Rule.TestCalls
/-!
# Registry — the rules that are active

A registry lists rules with the severity that their violations get. The order of the list is the order in which rules
see a node; it does not show in the result of an analysis.
-/
namespace LayoutLint

/-- The rules of this library, in the order in which they are listed. -/
def builtinRules : List Rule := [
  .spaceBeforeParameterList, .noSpaceBeforeArgumentList, .noSpaceAfterKeyword, .noTrailingWhitespace, .finalNewline,
  .maxLineLength, .noSpaceInCast, .noSpaceInAttribute, .usingRequiresBraces, .separateExitConditions,
  .extensionMethodCallInTests, .operatorAtLineStart]

/-- A rule with the severity of its violations. -/
structure ActiveRule where
  rule : Rule
  severity : Severity := .error

structure Registry where
  rules : List ActiveRule

namespace Registry

/-- The rules with the severity of errors. -/
def ofRules (rules : List Rule) : Registry := ⟨rules.map fun rule => { rule }⟩

/-- All rules of this library. -/
def builtin : Registry := ofRules builtinRules

def size (r : Registry) : Nat := r.rules.length

/-- The rule with an id. -/
def find? (r : Registry) (id : String) : Option ActiveRule := r.rules.find? (·.rule.id == id)

/-- The rules that look at nodes of a kind. -/
def nodeRules (r : Registry) (kind : NodeKind) : List ActiveRule := r.rules.filter (·.rule.nodeKinds.contains kind)

/-- The rules that look at the whole document. -/
def documentRules (r : Registry) : List ActiveRule := r.rules.filter (·.rule.nodeKinds.isEmpty)

end Registry

end LayoutLint
