import LayoutLint.Rule.Statements
/-!
# TestCalls — how tests call extension methods

A test should call an extension method as a static method of its container, not as a method of its first argument. A
method counts as an extension method when the document declares it with `this`, or when the options list it. Only the
calls that are not part of another call are looked at, and only in methods with a test attribute, in a document that
uses the test framework.
-/
namespace LayoutLint

/-- A call in the body of a test. -/
structure TestCall where
  extent : Span
  /-- The receiver and the name of the call, if it is that of a member. -/
  member : Option (TokenRange × Nat)
  deriving DecidableEq, Repr

/-- The namespace of the test framework. -/
def testNamespace : String := "NUnit.Framework"

/-- The names of the attributes that make a method a test. -/
def testAttributes : List String := ["Test", "TestAttribute"]

namespace SyntaxTree

/-- The methods that the document declares. -/
def methods (t : SyntaxTree) : List MethodDeclaration :=
  t.nodes.filterMap fun
    | .method m => some m
    | _ => none

end SyntaxTree

/-- Does the method have a test attribute? Its namespace does not matter. -/
def MethodDeclaration.isTest (m : MethodDeclaration) : Bool :=
  m.attributes.any fun name => testAttributes.contains (String.ofList (Text.splitLast '.' name.toList).2)

/-- Does the attribute name say that it comes from the test framework? -/
def namesTestNamespace (name : String) : Bool :=
  (testNamespace.toList ++ ['.']).isPrefixOf (Text.dropRepeated "global::".toList name.toList)

/-- The parenthesis that closes the one at token `opening`, found by counting parentheses from there; end-of-file when
there is none. -/
def Document.closingParen (d : Document) (opening : Nat) : Nat :=
  go 0 (List.range' opening (d.size - opening))
where
  /-- Counts on from `depth` open parentheses. -/
  go (depth : Nat) : List Nat → Nat
    | [] => d.endOfFile
    | i :: rest =>
      if (d.token i).text == "(" then go (depth + 1) rest
      else if (d.token i).text == ")" then if depth ≤ 1 then i else go (depth - 1) rest
      else go depth rest

namespace RuleContext

/-- Does the document use the test framework? -/
def usesTestFramework (c : RuleContext) : Bool :=
  c.tree.importsNamespace testNamespace || c.tree.methods.any fun m => m.attributes.any namesTestNamespace

/-- The extension methods that the document declares, with their containers. -/
def declaredExtensions (c : RuleContext) : List (String × Option String) :=
  (c.tree.methods.filter (·.isExtension)).map fun m => ((c.document.token m.name).text, m.container)

/-- The call whose parenthesis is token `opening`. -/
def callAt (c : RuleContext) (callee opening : Nat) : TestCall :=
  let member := c.tree.nodes.reverse.findSome? fun
    | .memberInvocation receiver name o closing => if o = opening then some (receiver, name, closing) else none
    | _ => none
  match member with
  | some (receiver, name, closing) =>
    { extent := ⟨(c.document.span receiver.first).start, (c.document.span closing).stop⟩
      member := some (receiver, name) }
  | none =>
    { extent := ⟨(c.document.span callee).start, (c.document.span (c.document.closingParen opening)).stop⟩
      member := none }

/-- All calls whose parenthesis stands in `body`. -/
def callsIn (c : RuleContext) (body : TokenRange) : List TestCall :=
  c.tree.nodes.filterMap fun
    | .invocation callee opening => if body.contains opening then some (c.callAt callee opening) else none
    | _ => none

end RuleContext

namespace TestCall

/-- Calls in the order of their starts, longer ones first. -/
def outerFirst (a b : TestCall) : Bool :=
  a.extent.start < b.extent.start || (a.extent.start == b.extent.start && b.extent.stop ≤ a.extent.stop)

/-- The calls that start at `reached` or later, each outside of the ones before it. -/
def outermostFrom (reached : Nat) : List TestCall → List TestCall
  | [] => []
  | call :: rest =>
    if call.extent.start < reached then outermostFrom reached rest
    else call :: outermostFrom call.extent.stop rest

end TestCall

namespace RuleContext

/-- The calls in `body` that are not part of another call. -/
def outermostCalls (c : RuleContext) (body : TokenRange) : List TestCall :=
  TestCall.outermostFrom 0 ((c.callsIn body).mergeSort TestCall.outerFirst)

/-- Is the call one of an extension method, written as a call of a member? -/
def isExtensionCall (c : RuleContext) (call : TestCall) : Bool :=
  match call.member with
  | none => false
  | some (receiver, name) =>
    let name := (c.document.token name).text
    let receiver := String.join
      ((List.range' receiver.first (receiver.last + 1 - receiver.first)).map fun i => (c.document.token i).text)
    let containers := (c.declaredExtensions.filter (·.1 == name)).map (·.2) ++ c.options.containersOf name
    !containers.isEmpty && !containers.contains (some receiver)

end RuleContext

/-- Tests call extension methods as static methods. -/
def Rule.extensionMethodCallInTests : Rule where
  id := "extension-method-call-in-tests"
  description := "Extension methods should be tested using normal method invocation instead of by extension"
  nodeKinds := [.method]
  checkNode c node :=
    match node with
    | .method m =>
      match m.body with
      | some body =>
        if m.isTest && c.usesTestFramework then
          ((c.outermostCalls body).filter c.isExtensionCall).map fun call =>
            c.violation "extension-method-call-in-tests"
              "Extension methods should be tested with normal method invocation syntax" call.extent
        else []
      | none => []
    | _ => []

end LayoutLint
