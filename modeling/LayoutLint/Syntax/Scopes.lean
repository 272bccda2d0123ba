import LayoutLint.Syntax.Walk
/-!
# Scopes — the bodies of types and namespaces, and what a document imports

A brace is the body of a type, with the type's name, or of a namespace, or neither. The declaration that comes last
decides. A `using` directive stands outside of all bodies but those of namespaces, ends in a semicolon and imports a
namespace unless it declares an alias.
-/
namespace LayoutLint

/-- What the braces of a document are, and which tokens belong to headers of namespaces and to directives. -/
structure Scopes where
  /-- The name of the type whose body a brace opens. -/
  typeBody : Array (Option String)
  /-- Does the brace open the body of a namespace? -/
  namespaceBody : Array Bool
  /-- Does the token belong to the header of a namespace or to a directive? -/
  inDirective : Array Bool
  imports : List String

/-- The flags with those from `first` up to, not including, `stop` set. -/
def setRange (flags : Array Bool) (first stop : Nat) : Array Bool :=
  (List.range' first (stop - first)).foldl (fun flags i => flags.setIfInBounds i true) flags

namespace Outline

/-- The end of the header that goes on at token `i`: its `{`, or what stops it. -/
def headerEnd (o : Outline) (i : Nat) : Walk := o.walk ["\x7b", ";", "\x7d"] ["(", "["] i

/-- The brace of the body whose header goes on at token `i`. -/
def bodyAfter? (o : Outline) (i : Nat) : Option Nat :=
  match o.headerEnd i with
  | .found j => if o.isAt j "\x7b" then some j else none
  | _ => none

/-- The name of the type that is declared by the keyword at token `i`. -/
def typeNameAfter? (o : Outline) (i : Nat) : Option Nat :=
  let name? :=
    if o.isOneOf i ["class", "struct", "interface", "enum"] && o.kind i == .keyword then some (i + 1)
    else if o.isAt i "record" && o.isIdentifier i then
      let name := if o.isOneOf (i + 1) ["class", "struct"] then i + 2 else i + 1
      if o.isOneOf (name + 1) ["(", "\x7b", ":", "<", ";"] then some name else none
    else none
  name?.filter o.isName

/-- The type whose declaration starts at token `i`, as the brace of its body and its name. -/
def typeBodyAt? (o : Outline) (i : Nat) : Option (Nat × String) := do
  let name ← o.typeNameAfter? i
  let brace ← o.bodyAfter? (name + 1)
  return (brace, o.word name)

/-- The keywords that declare namespaces. -/
def namespaceHeads (o : Outline) : List Nat := o.ids.filter fun i => o.isKeyword i "namespace"

/-- The flags of the braces that open namespaces. -/
def namespaceBodies (o : Outline) : Array Bool :=
  (o.namespaceHeads.filterMap fun i => o.bodyAfter? (i + 1)).foldl (fun flags b => flags.setIfInBounds b true)
    (Array.replicate o.document.size false)

/-- Does token `i` stand outside of all braces but those of namespaces? -/
def inNamespaceScope (o : Outline) (namespaceBody : Array Bool) (i : Nat) : Bool :=
  match o.brackets.enclosing? i with
  | some b => namespaceBody.getD b false
  | none => true

/-- The semicolon of the `using` directive that starts at token `i`. -/
def directiveEnd? (o : Outline) (namespaceBody : Array Bool) (i : Nat) : Option Nat :=
  if o.isKeyword i "using" && !o.isAt (i + 1) "(" && o.inNamespaceScope namespaceBody i &&
      !(0 < i && o.isAt (i - 1) "await") then
    let stop := (o.walk [";", "\x7b", "\x7d"] [] (i + 1)).stop
    if o.isAt stop ";" then some stop else none
  else none

/-- What the directive from token `i` up to the semicolon `stop` imports. -/
def importAt? (o : Outline) (i stop : Nat) : Option String :=
  let first := if o.isKeyword (i + 1) "static" then i + 2 else i + 1
  if first < stop && !(List.range' first (stop - first)).any (o.isAt · "=") then some (o.document.joined first stop)
  else none

/-- The scopes of a document. -/
def scopes (o : Outline) : Scopes :=
  let namespaceBody := o.namespaceBodies
  let directives : List (Nat × Nat) :=
    o.ids.filterMap fun i => (o.directiveEnd? namespaceBody i).map fun stop => (i, stop)
  let headers : List (Nat × Nat) := o.namespaceHeads.map fun i => (i, (o.headerEnd (i + 1)).stop)
  let lines := headers ++ directives.map fun (i, stop) => (i, stop + 1)
  { typeBody := (o.ids.filterMap o.typeBodyAt?).foldl (fun bodies (b, name) => bodies.setIfInBounds b (some name))
      (Array.replicate o.document.size none)
    namespaceBody
    inDirective := lines.foldl (fun flags (first, stop) => setRange flags first stop)
      (Array.replicate o.document.size false)
    imports := directives.filterMap fun (i, stop) => o.importAt? i stop }

/-- Is token `i` directly in the body of a type? -/
def inTypeBody (o : Outline) (s : Scopes) (i : Nat) : Bool :=
  match o.brackets.enclosing? i with
  | some b => (s.typeBody.getD b none).isSome
  | none => false

/-- The name of the innermost type around token `i`. -/
def containerOf? (o : Outline) (s : Scopes) (i : Nat) : Option String :=
  match _h : o.brackets.enclosing? i with
  | some b =>
    match s.typeBody.getD b none with
    | some name => some name
    | none => o.containerOf? s b
  | none => none
termination_by i
decreasing_by exact Brackets.lt_of_enclosing? _h

end Outline

end LayoutLint
