import LayoutLint.Edit
import LayoutLint.Failure
import LayoutLint.Options
import LayoutLint.Violation
/-!
# Rule — what a layout rule is

A rule looks at the nodes of the kinds it names, or, when it names none, at the whole document once. It reports
violations, each by its region, and a fixable rule can mend what it reported: its fix takes the region alone and finds
all else in the document, so it stays good after edits elsewhere. A rule keeps no state.
-/
namespace LayoutLint

/-- What a rule may look at. -/
structure RuleContext where
  document : Document
  tree : SyntaxTree
  options : AnalyzerOptions := {}
  /-- The analysis has been called off. -/
  cancelled : Bool := false

namespace RuleContext

/-- Goes on unless the analysis has been called off. -/
def goOn (c : RuleContext) : Except Failure Unit := if c.cancelled then .error .cancelled else .ok ()

/-- The violation of a rule at a region of the document. -/
def violation (c : RuleContext) (ruleId message : String) (span : Span) : Violation :=
  { ruleId, message, span, location := some (c.document.location span) }

end RuleContext

structure Rule where
  id : String
  description : String
  /-- Can the rule mend what it reports? -/
  fixable : Bool := false
  /-- The kinds of nodes that the rule looks at. -/
  nodeKinds : List NodeKind := []
  checkNode : RuleContext → SyntaxNode → List Violation := fun _ _ => []
  checkDocument : RuleContext → Except Failure (List Violation) := fun _ => .ok []
  /-- The edit for a violation reported at a region. -/
  fix : Document → Span → Option Edit := fun _ _ => none

end LayoutLint
