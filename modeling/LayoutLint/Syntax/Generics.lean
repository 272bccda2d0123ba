import LayoutLint.Syntax.Outline
/-!
# Generics — angle brackets that hold type arguments

A `<` after an identifier opens a type argument list when its `>` is found over nothing but types and their
punctuation, and when what follows the `>` is something that can follow a type. Otherwise it is a comparison.
-/
namespace LayoutLint

namespace Document

/-- The punctuation of type argument lists. -/
def typePunctuation : List String := [",", ".", "::", "?", "[", "]", "(", ")", "*"]

/-- Can the token stand in a type argument list? -/
def isTypeArgPart (d : Document) (i : Nat) : Bool :=
  d.isOneOf i typePunctuation || d.kindAt i == .identifier || d.isPredefined i || d.isOneOf i ["in", "out"]

/-- The `>` that brings `depth` open angle brackets to an end, looked for in the tokens `ids`. -/
def angleEnd? (d : Document) (depth : Nat) : List Nat → Option Nat
  | [] => none
  | j :: rest =>
    if d.wordAt j == "<" then d.angleEnd? (depth + 1) rest
    else if d.wordAt j == ">" then if depth == 1 then some j else d.angleEnd? (depth - 1) rest
    else if d.isTypeArgPart j then d.angleEnd? depth rest
    else none

/-- The number of tokens looked at for the end of a type argument list. -/
def typeArgWindow : Nat := 128

/-- Can the token follow a type argument list? -/
def followsTypeArgs (d : Document) (i : Nat) : Bool :=
  d.isOneOf i ["(", ")", "]", "\x7d", ":", ";", ",", ".", "?", "==", "!=", "\x7b", "=>", "[", ">", ""] ||
    d.kindAt i == .identifier

/-- The `>` of the type argument list that token `i` opens. -/
def typeArgsAt? (d : Document) (i : Nat) : Option Nat :=
  if 0 < i && d.wordAt i == "<" && d.kindAt (i - 1) == .identifier then
    (d.angleEnd? 0 (List.range' i (min typeArgWindow (d.endOfFile - i)))).filter fun c => d.followsTypeArgs (c + 1)
  else none

end Document

/-- The outline of a document. -/
def Outline.ofDocument (d : Document) : Outline :=
  let lists := (List.range d.endOfFile).map d.typeArgsAt?
  { document := d
    brackets := Brackets.ofTexts (d.tokens.toList.map (·.text))
    typeArgsEnd := lists.toArray
    typeArgsStart := lists.zipIdx.foldl
      (fun table (close, i) => match close with
        | some c => table.setIfInBounds c (some i)
        | none => table)
      (Array.replicate d.size none) }

end LayoutLint
