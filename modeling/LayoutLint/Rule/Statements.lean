import LayoutLint.Rule
/-!
# Statements — the rules on `using` and `if`

What a `using` statement applies to should be a block or another `using`. An `if` that returns for any of several
conditions should be written as one `if` for each; it may stay when a branch without condition follows.
-/
namespace LayoutLint

/-- The region from the start of a run of tokens to its end. -/
def Document.rangeSpan (d : Document) (r : TokenRange) : Span := ⟨(d.span r.first).start, (d.span r.last).stop⟩

namespace Rule

def usingRequiresBraces : Rule where
  id := "using-requires-braces"
  description := "Using statements must use braces around the codeblock"
  nodeKinds := [.usingStatement]
  checkNode c node :=
    match node with
    | .usingStatement _ body .other =>
      [c.violation "using-requires-braces" "There must be braces around the codeblock of a using statement"
        (c.document.rangeSpan body)]
    | _ => []

def separateExitConditions : Rule where
  id := "separate-exit-conditions"
  description := "Exit conditions must use separate IF statements instead of OR'ed statements"
  nodeKinds := [.ifStatement]
  checkNode c node :=
    match node with
    | .ifStatement extent disjunction bodyFirst endsWithElse =>
      if disjunction && (c.document.token bodyFirst).text == "return" && !endsWithElse then
        [c.violation "separate-exit-conditions" "There must not be OR'ed exit conditions"
          (c.document.rangeSpan extent)]
      else []
    | _ => []

end Rule

end LayoutLint
