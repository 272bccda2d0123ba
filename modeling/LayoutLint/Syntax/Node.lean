import LayoutLint.Token
/-!
# Node — the shapes that layout rules look at

A syntax tree here is shallow: each node names the few tokens that a rule needs, by their numbers in the document. As
changing trivia neither adds nor removes tokens, a tree serves every document made from its own by splices. The nodes of
a tree stand in the order of their anchors; nodes with one anchor stand in the order in which they were found.
-/
namespace LayoutLint

/-- What declares a parameter list. -/
inductive DeclarationKind where
  | method
  | constructor
  | localFunction
  | delegate
  | anonymousMethod
  deriving DecidableEq, Repr

/-- What an operator token does. -/
inductive OperatorRole where
  /-- An arithmetic, relational, logical or bitwise operator. -/
  | binary
  /-- The `is` of a type test or a pattern. -/
  | typeTest
  /-- An `and` or `or` between patterns. -/
  | pattern
  /-- `??` -/
  | coalesce
  /-- The `?` of `?.` and `?[`. -/
  | conditionalAccess
  /-- The `.` after the `?` of a conditional access. -/
  | memberBinding
  /-- The `.` of a member access. -/
  | memberAccess
  /-- The `?` of a conditional expression. -/
  | conditionalQuestion
  /-- The `:` of a conditional expression. -/
  | conditionalColon
  deriving DecidableEq, Repr

/-- What kind of statement another one contains. -/
inductive StatementKind where
  | block
  | usingStatement
  | other
  deriving DecidableEq, Repr

/-- A run of tokens, its last one included. -/
structure TokenRange where
  first : Nat
  last : Nat
  deriving DecidableEq, Repr

def TokenRange.contains (r : TokenRange) (id : Nat) : Bool := r.first ≤ id && id ≤ r.last

structure MethodDeclaration where
  name : Nat
  /-- The names of its attributes, as written. -/
  attributes : List String
  /-- Its first parameter carries `this`. -/
  isExtension : Bool
  /-- The name of the innermost type around it. -/
  container : Option String
  /-- Its block, or its expression from the arrow on. -/
  body : Option TokenRange
  deriving DecidableEq, Repr

inductive SyntaxNode where
  /-- The `name (` of a declaration. The name is the `>` of a type parameter list if there is one, and the keyword of an
  anonymous method. -/
  | parameterList (declaration : DeclarationKind) (name opening : Nat)
  /-- The `callee (` of a call, by the last token of what is called. -/
  | invocation (callee opening : Nat)
  /-- The `Type (` after `new`. -/
  | objectCreation (typeEnd opening : Nat)
  /-- A keyword that takes its operand in parentheses, with the parenthesis. -/
  | keywordExpression (keyword opening : Nat)
  /-- The `) operand` of a cast. -/
  | castExpression (closing operand : Nat)
  /-- The `Name (` of an attribute. -/
  | attributeArguments (nameEnd opening : Nat)
  | usingStatement (keyword : Nat) (body : TokenRange) (bodyKind : StatementKind)
  /-- An `if` with its whole chain of `else` branches. `disjunction` says that the condition is an alternative,
  `bodyFirst` names the first token of the first statement in the body, `endsWithElse` says that the last branch has no
  condition. -/
  | ifStatement (extent : TokenRange) (disjunction : Bool) (bodyFirst : Nat) (endsWithElse : Bool)
  | operator (token : Nat) (role : OperatorRole)
  | method (declaration : MethodDeclaration)
  /-- A call `receiver.name( )`. -/
  | memberInvocation (receiver : TokenRange) (name opening closing : Nat)
  deriving DecidableEq, Repr

/-- The kinds of nodes that a rule can ask for. -/
inductive NodeKind where
  | parameterList
  | invocation
  | objectCreation
  | keywordExpression
  | castExpression
  | attributeArguments
  | usingStatement
  | ifStatement
  | operator
  | method
  | memberInvocation
  deriving DecidableEq, Repr

namespace SyntaxNode

def kind : SyntaxNode → NodeKind
  | parameterList .. => .parameterList
  | invocation .. => .invocation
  | objectCreation .. => .objectCreation
  | keywordExpression .. => .keywordExpression
  | castExpression .. => .castExpression
  | attributeArguments .. => .attributeArguments
  | usingStatement .. => .usingStatement
  | ifStatement .. => .ifStatement
  | operator .. => .operator
  | method .. => .method
  | memberInvocation .. => .memberInvocation

/-- The token that gives the node its place among the others. -/
def anchor : SyntaxNode → Nat
  | parameterList _ name _ => name
  | invocation callee _ => callee
  | objectCreation typeEnd _ => typeEnd
  | keywordExpression keyword _ => keyword
  | castExpression closing _ => closing
  | attributeArguments nameEnd _ => nameEnd
  | usingStatement keyword .. => keyword
  | ifStatement extent .. => extent.first
  | operator token _ => token
  | method declaration => declaration.name
  | memberInvocation receiver .. => receiver.first

end SyntaxNode

structure SyntaxTree where
  nodes : List SyntaxNode
  /-- The namespaces that the document imports. -/
  imports : List String
  deriving DecidableEq, Repr

namespace SyntaxTree

/-- The tree of the nodes, brought into the order of their anchors. -/
def ofNodes (nodes : List SyntaxNode) (imports : List String) : SyntaxTree :=
  { nodes := nodes.mergeSort fun m n => m.anchor ≤ n.anchor, imports }

/-- The nodes of one kind. -/
def ofKind (t : SyntaxTree) (kind : NodeKind) : List SyntaxNode := t.nodes.filter (·.kind == kind)

def importsNamespace (t : SyntaxTree) (name : String) : Bool := t.imports.contains name

end SyntaxTree

end LayoutLint
