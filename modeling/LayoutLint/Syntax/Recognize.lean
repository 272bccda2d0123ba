import LayoutLint.Document.Source
import LayoutLint.Syntax.Calls
import LayoutLint.Syntax.Casts
import LayoutLint.Syntax.Generics
import LayoutLint.Syntax.Statements
/-!
# Recognize — the syntax tree of a document

The shapes are found one family after another, as a parenthesis that one family claims is no longer free for the next:
attributes, declarations, attributes of parameters, keyword operands, creations, calls, and last casts. Recognition
fails only when the end of a statement cannot be found, which no well-formed program makes happen.
-/
namespace LayoutLint

namespace Outline

/-- The syntax tree of an outlined document. -/
def tree? (o : Outline) : Option SyntaxTree := do
  let size := o.document.size
  let scopes := o.scopes
  let attributeLists := o.declarationAttributes
  let listNames := attributeLists.foldl (fun table l => table.setIfInBounds l.closing (some l.names))
    (Array.replicate size none)
  let attributeNodes := attributeLists.flatMap AttributeList.nodes
  let attributeOpens := attributeLists.flatMap fun l => l.arguments.map (·.2)
  let declarations := o.declarations scopes (fun i => listNames.getD i none) (TokenSet.ofList size attributeOpens)
  let declarationOpens := declarations.map (·.opening)
  let declared := TokenSet.ofList size (declarations.filterMap (·.name))
  let parameterLists :=
    o.parameterAttributes (TokenSet.ofList size declarationOpens) fun i => (listNames.getD i none).isSome
  let parameterOpens := parameterLists.flatMap fun l => l.arguments.map (·.2)
  let claimed := attributeOpens ++ declarationOpens ++ parameterOpens
  let keywordOperands := o.keywordExpressions (TokenSet.ofList size claimed)
  let claimed := claimed ++ keywordOperands.map (·.2)
  let creations := o.objectCreations (TokenSet.ofList size claimed)
  let claimed := claimed ++ creations.map (·.2)
  let invocations := o.invocations declared (TokenSet.ofList size claimed)
  let claimed := claimed ++ invocations.filterMap fun n => match n with
    | .invocation _ opening => some opening
    | _ => none
  let casts := o.casts (TokenSet.ofList size claimed)
  let roles := o.operatorRoles scopes declared
  let usings ← o.usingStatements?
  let ifs ← o.ifStatements? roles
  return .ofNodes
    (attributeNodes ++ declarations.flatMap Declaration.nodes ++ parameterLists.flatMap AttributeList.nodes ++
      keywordOperands.map (fun (keyword, opening) => .keywordExpression keyword opening) ++
      creations.map (fun (typeEnd, opening) => .objectCreation typeEnd opening) ++ invocations ++
      casts.map (fun (closing, operand) => .castExpression closing operand) ++ operatorNodes roles ++ usings ++ ifs)
    scopes.imports

end Outline

/-- The syntax tree of a document. -/
def SyntaxTree.ofDocument? (d : Document) : Option SyntaxTree := (Outline.ofDocument d).tree?

end LayoutLint
