import LayoutLint.Syntax.Node
import LayoutLint.Syntax.Scopes
import LayoutLint.Syntax.TokenSet
/-!
# Operators — what each operator token does

Operators are read from left to right. A scan keeps the bracket depth, the depths of the conditional expressions whose
colon is still to come, and the depth at which a pattern is being read: `and` and `or` are operators only there.
-/
namespace LayoutLint

/-- Operators read up to some token. -/
structure OperatorScan where
  depth : Nat := 0
  /-- The depths of open conditional expressions, innermost first. -/
  conditionals : List Nat := []
  /-- The depth of the pattern that is being read. -/
  pattern : Option Nat := none
  /-- The role of each token read. -/
  roles : Array (Option OperatorRole) := #[]

/-- The operators with two operands. -/
def binaryOperators : List String := [
  "+", "-", "*", "/", "%", "<", "<=", ">=", ">", "==", "!=", "||", "&&", "|", "&", "^"]

namespace Outline

/-- Does the `?` at token `i` make a type nullable? `declared` tells the names of declarations. -/
def isNullableMark (o : Outline) (declared : TokenSet) (i : Nat) : Bool :=
  0 < i && (o.isPredefined (i - 1) || o.closesTypeArgs (i - 1) ||
    (o.isIdentifier (i - 1) && (o.isOneOf (i + 1) [")", ">", ",", "]", ";", "=", ""] ||
      (o.isIdentifier (i + 1) &&
        (o.isOneOf (i + 2) ["=", ";", ",", ")", "=>", "\x7b", "in"] || declared.has (i + 1))))))

/-- The role of the `.` at token `i`, where `before` is the role of the token in front of it. -/
def dotRole (o : Outline) (inDirective : Bool) (before : Option OperatorRole) (i : Nat) : Option OperatorRole :=
  if i == 0 then none
  else if before == some .conditionalAccess then some .memberBinding
  else if inDirective then none
  else if o.isOperandEnd (i - 1) || o.isPredefined (i - 1) || o.closesTypeArgs (i - 1) || o.isIdentifier (i - 1) ||
      o.isAt (i - 1) "!" then
    some .memberAccess
  else none

end Outline

namespace OperatorScan

/-- The scan after token `i`, which has the given role. -/
def push (s : OperatorScan) (role : Option OperatorRole) : OperatorScan := { s with roles := s.roles.push role }

/-- Is a pattern being read at the scan's depth or deeper? -/
def leavesPattern (s : OperatorScan) : Bool := s.pattern.any (s.depth ≤ ·)

/-- Closes a bracket. -/
def closeBracket (s : OperatorScan) : OperatorScan :=
  { s with
    conditionals := s.conditionals.filter (· < s.depth)
    pattern := if s.leavesPattern then none else s.pattern
    depth := s.depth - 1 }

/-- Ends a statement. -/
def endStatement (s : OperatorScan) : OperatorScan :=
  { s with conditionals := s.conditionals.filter (· < s.depth), pattern := none }

/-- Reads token `i`, which is neither a bracket nor a semicolon. -/
def readOperator (o : Outline) (scopes : Scopes) (declared : TokenSet) (s : OperatorScan) (i : Nat) : OperatorScan :=
  if o.isAt i "?" then
    if o.isOneOf (i + 1) [".", "["] && 0 < i && o.isOperandEnd (i - 1) then s.push (some .conditionalAccess)
    else if o.isNullableMark declared i then s.push none
    else { s with conditionals := s.depth :: s.conditionals }.push (some .conditionalQuestion)
  else if o.isAt i ":" && s.conditionals.head? == some s.depth then
    { s with conditionals := s.conditionals.tail }.push (some .conditionalColon)
  else if o.isAt i "." then
    s.push (o.dotRole (scopes.inDirective.getD i false) (s.roles.getD (i - 1) none) i)
  else if o.isAt i "??" then s.push (some .coalesce)
  else if o.isKeyword i "is" then { s with pattern := some s.depth }.push (some .typeTest)
  else if o.isKeyword i "case" then { s with pattern := some s.depth }.push none
  else if o.isOneOf i ["and", "or"] && o.isIdentifier i && s.pattern.any (· ≤ s.depth) && 0 < i &&
      (o.isOperandEnd (i - 1) || o.isPredefined (i - 1)) then
    s.push (some .pattern)
  else if o.isOneOf i binaryOperators && !o.isTypeArgBracket i && 0 < i && o.isOperandEnd (i - 1) then
    s.push (some .binary)
  else s.push none

/-- Reads token `i`. -/
def step (o : Outline) (scopes : Scopes) (declared : TokenSet) (s : OperatorScan) (i : Nat) : OperatorScan :=
  if o.isOneOf i ["(", "[", "\x7b"] then { s with depth := s.depth + 1 }.push none
  else if o.isOneOf i [")", "]", "\x7d"] then s.closeBracket.push none
  else if o.isAt i ";" then s.endStatement.push none
  else
    let s := if o.isOneOf i [",", "=>", "&&", "||", ":"] && s.leavesPattern then { s with pattern := none } else s
    readOperator o scopes declared s i

end OperatorScan

namespace Outline

/-- The role of each token. -/
def operatorRoles (o : Outline) (scopes : Scopes) (declared : TokenSet) : Array (Option OperatorRole) :=
  (o.ids.foldl (OperatorScan.step o scopes declared) {}).roles

end Outline

/-- The nodes of the tokens that have a role. -/
def operatorNodes (roles : Array (Option OperatorRole)) : List SyntaxNode :=
  roles.toList.zipIdx.filterMap fun (role, i) => role.map fun role => .operator i role

end LayoutLint
