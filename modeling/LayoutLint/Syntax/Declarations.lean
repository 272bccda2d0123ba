import LayoutLint.Syntax.Attributes
import LayoutLint.Syntax.Node
import LayoutLint.Syntax.Scopes
import LayoutLint.Syntax.Types
/-!
# Declarations — parameter lists and what they declare

A parenthesis after a name opens a parameter list when a type stands in front of the name and something that can follow
a parameter list behind it, or when the name is that of the type around it, which makes a constructor, or when it
follows `delegate`. Whether a declaration is a method or a local function depends on where it stands.
-/
namespace LayoutLint

structure Declaration where
  kind : DeclarationKind
  /-- The name that is declared; anonymous methods have none. -/
  name : Option Nat
  /-- The token in front of the parameter list. -/
  nameEnd : Nat
  opening : Nat
  /-- What more is known of a method. -/
  method : Option MethodDeclaration
  deriving DecidableEq, Repr

/-- The nodes of a declaration. -/
def Declaration.nodes (d : Declaration) : List SyntaxNode :=
  .parameterList d.kind d.nameEnd d.opening :: (d.method.map SyntaxNode.method).toList

namespace Outline

/-- The name in front of a parenthesis that ends in token `i`: the token itself, or the name in front of the type
argument list that it closes. -/
def nameBefore? (o : Outline) (i : Nat) : Option Nat :=
  match o.typeArgsStart? i with
  | some start => if 0 < start && o.isName (start - 1) then some (start - 1) else none
  | none => if o.isName i then some i else none

/-- The names in the attribute lists in front of token `i`, where modifiers may stand between them and the token.
`listNames` tells the names of the list that a bracket closes. -/
def attributesBefore (o : Outline) (listNames : Nat → Option (List String)) (i : Nat) : List String :=
  if _h : 0 < i then
    if o.isModifier (i - 1) then o.attributesBefore listNames (i - 1)
    else
      match listNames (i - 1) with
      | none => []
      | some names =>
        match _h' : o.opening? (i - 1) with
        | some start => o.attributesBefore listNames start ++ names
        | none => names
  else []
termination_by i
decreasing_by
  · omega
  · have := Brackets.lt_of_opening? _h'
    omega

/-- Does the parameter list from token `i` on start with `this`, attribute lists left out? -/
def startsWithThis (o : Outline) (i : Nat) : Bool :=
  if _h : i < o.document.size && o.isAt i "[" then
    match _h' : o.closing? i with
    | some close => o.startsWithThis (close + 1)
    | none => false
  else o.isKeyword i "this"
termination_by o.document.size - i
decreasing_by
  have := Brackets.lt_of_closing? _h'
  simp only [Bool.and_eq_true, decide_eq_true_eq] at _h
  omega

/-- The body of the method whose header goes on at token `i`. -/
def methodBody? (o : Outline) (i : Nat) : Option TokenRange :=
  match o.walk ["\x7b", "=>", ";", "\x7d"] ["(", "["] i with
  | .found j =>
    if o.isAt j "\x7b" then (o.closing? j).map fun close => ⟨j, close⟩
    else if o.isAt j "=>" then some ⟨j, o.expressionEnd (j + 1)⟩
    else none
  | .unclosed _ | .finished _ => none

/-- Does the name at token `name` with a parameter list after it, closed in front of token `after`, declare a
constructor of the type around it? -/
def isConstructor (o : Outline) (s : Scopes) (name after : Nat) : Bool :=
  o.inTypeBody s name && o.containerOf? s name == some (o.word name) &&
    (name == 0 || o.isModifier (name - 1) || o.isOneOf (name - 1) ["\x7b", "\x7d", ";", "]"]) &&
    o.isOneOf after ["\x7b", ":", "=>", ";"]

/-- The declaration whose parameter list token `i` opens. -/
def declarationAt? (o : Outline) (s : Scopes) (listNames : Nat → Option (List String)) (i : Nat) :
    Option Declaration :=
  if o.isKeyword (i - 1) "delegate" then
    some { kind := .anonymousMethod, name := none, nameEnd := i - 1, opening := i, method := none }
  else do
    let name ← o.nameBefore? (i - 1)
    let close ← o.closing? i
    if i - 1 == name && o.isConstructor s name (close + 1) then
      return { kind := .constructor, name := some name, nameEnd := i - 1, opening := i, method := none }
    else if 0 < name && o.isTypeEnd (name - 1) && o.isOneOf (close + 1) ["\x7b", "=>", ";", "where"] then
      let start ← o.typeStart? (name - 1)
      let kind :=
        if 0 < start && o.isKeyword (start - 1) "delegate" then DeclarationKind.delegate
        else if o.inTypeBody s name then .method
        else .localFunction
      let method : MethodDeclaration :=
        { name
          attributes := o.attributesBefore listNames start
          isExtension := o.startsWithThis (i + 1)
          container := o.containerOf? s name
          body := o.methodBody? (close + 1) }
      return { kind, name := some name, nameEnd := i - 1, opening := i,
               method := if kind == .method then some method else none }
    else none

/-- The declarations of a document. Parentheses in `claimed` belong to something else. -/
def declarations (o : Outline) (s : Scopes) (listNames : Nat → Option (List String)) (claimed : TokenSet) :
    List Declaration :=
  o.ids.filterMap fun i =>
    if 0 < i && o.isAt i "(" && !claimed.has i then o.declarationAt? s listNames i else none

end Outline

end LayoutLint
