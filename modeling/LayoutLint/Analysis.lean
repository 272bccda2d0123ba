import LayoutLint.Registry
/-!
# Analysis — what the rules of a registry report on a document

Each node goes to the rules for its kind and the document to the rules that look at all of it. The violations get the
severities of their rules and are brought into order; a violation that is reported twice is listed once. No rule sees
what another one reports.
-/
namespace LayoutLint

/-- The violations with the severity of the rule that reported them. -/
def ActiveRule.report (r : ActiveRule) (violations : List Violation) : List Violation :=
  violations.map fun v => { v with severity := r.severity }

namespace Registry

/-- What the rules report on the nodes of a tree. -/
def checkNodes (r : Registry) (c : RuleContext) : List Violation :=
  c.tree.nodes.flatMap fun node =>
    (r.nodeRules node.kind).flatMap fun active => active.report (active.rule.checkNode c node)

/-- What the rules report on the whole document. -/
def checkDocument (r : Registry) (c : RuleContext) : Except Failure (List Violation) := do
  let found ← r.documentRules.mapM fun active => active.report <$> active.rule.checkDocument c
  return found.flatten

/-- The violations of a document, in order. -/
def analyze (r : Registry) (c : RuleContext) : Except Failure (List Violation) := do
  if !c.tree.nodes.isEmpty then c.goOn
  let found := r.checkNodes c ++ (← r.checkDocument c)
  return (found.mergeSort Violation.le).eraseReps

/-- The ids of the rules that an analysis of a tree runs at least once. -/
def rulesRun (r : Registry) (t : SyntaxTree) : List String :=
  (r.rules.filter fun active =>
    active.rule.nodeKinds.isEmpty || t.nodes.any fun node => active.rule.nodeKinds.contains node.kind).map (·.rule.id)

end Registry

end LayoutLint
