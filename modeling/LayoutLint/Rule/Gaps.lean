import LayoutLint.Gap
import LayoutLint.Rule
/-!
# Gaps — the rules on white space before parentheses and operands

Five rules, each for the gap between two tokens of the nodes of some kinds. A declared parameter list takes one space in
front; argument lists, keyword operands, cast operands and attribute arguments take none.
-/
namespace LayoutLint.Rule

/-- The rule that gaps keep a contract. `gapOf` tells the two tokens of a node whose gap is meant. -/
def ofGap (id description message : String) (kinds : List NodeKind) (contract : GapContract)
    (gapOf : SyntaxNode → Option (Nat × Nat)) : Rule where
  id
  description
  fixable := true
  nodeKinds := kinds
  checkNode c node :=
    match gapOf node with
    | some (left, right) =>
      ((contract.check? c.document left right).map (c.violation id message)).toList
    | none => []
  fix d span := contract.edit? d id span

def spaceBeforeParameterList : Rule :=
  ofGap "space-before-parameter-list" "Method declaration must have exactly one space before its parameters"
    "There must be exactly ONE whitespace before parameters in method declaration" [.parameterList] .singleSpace
    fun
      | .parameterList _ name opening => some (name, opening)
      | _ => none

def noSpaceBeforeArgumentList : Rule :=
  ofGap "no-space-before-argument-list" "Method invocation must not have a whitespace before its arguments"
    "There must not be any whitespaces in a method invocation before its arguments" [.invocation, .objectCreation]
    .noWhitespace
    fun
      | .invocation callee opening => some (callee, opening)
      | .objectCreation typeEnd opening => some (typeEnd, opening)
      | _ => none

def noSpaceInCast : Rule :=
  ofGap "no-space-in-cast" "Cast expression must not contain a space" "There must be no whitespace in a cast expression"
    [.castExpression] .noWhitespace
    fun
      | .castExpression closing operand => some (closing, operand)
      | _ => none

def noSpaceInAttribute : Rule :=
  ofGap "no-space-in-attribute"
    "Attribute must not contain a space between the identifier and the argument list"
    "There must be no whitespace in an attribute between the identifier and the argument list" [.attributeArguments]
    .noWhitespace
    fun
      | .attributeArguments nameEnd opening => some (nameEnd, opening)
      | _ => none

/-- Keyword operands. Only what trails the keyword counts, and the message names the keyword. -/
def noSpaceAfterKeyword : Rule where
  id := "no-space-after-keyword"
  description := "Keyword expressions must be immediately followed by '('"
  fixable := true
  nodeKinds := [.keywordExpression]
  checkNode c node :=
    match node with
    | .keywordExpression keyword opening =>
      let k := c.document.token keyword
      if k.trailing.isEmpty || k.missing || (c.document.token opening).missing then []
      else
        [c.violation "no-space-after-keyword" ("'" ++ k.text ++ "' must be immediately followed by '('")
          (c.document.gapSpan keyword opening)]
    | _ => []
  fix d span := GapContract.noWhitespace.edit? d "no-space-after-keyword" span

end LayoutLint.Rule
