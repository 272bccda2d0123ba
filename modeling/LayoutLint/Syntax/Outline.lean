import LayoutLint.Syntax.Brackets
/-!
# Outline — a document with its brackets matched

Syntax is recognized from the texts and kinds of tokens, from the brackets that belong together, and from the angle
brackets that hold type arguments. An outline keeps these tables beside the document and answers questions about single
tokens. Tokens past the end answer as a bare end-of-file token does.
-/
namespace LayoutLint

/-- A document with its brackets and its type argument lists matched. -/
structure Outline where
  document : Document
  brackets : Brackets
  /-- The `>` of the type argument list that a `<` opens. -/
  typeArgsEnd : Array (Option Nat)
  /-- The `<` of the type argument list that a `>` closes. -/
  typeArgsStart : Array (Option Nat)

/-- The type names that are keywords. -/
def predefinedTypes : List String := [
  "bool", "byte", "char", "decimal", "double", "float", "int", "long", "object", "sbyte", "short", "string", "uint",
  "ulong", "ushort", "void"]

/-- The words that may stand in front of a declaration. -/
def modifiers : List String := [
  "abstract", "async", "const", "extern", "file", "internal", "new", "override", "partial", "private", "protected",
  "public", "readonly", "ref", "required", "sealed", "static", "unsafe", "virtual", "volatile"]

/-- Words that are keywords where they make sense, and never name a type or what is called. -/
def contextualWords : List String := [
  "and", "ascending", "await", "by", "descending", "equals", "from", "group", "into", "join", "let", "nameof", "not",
  "on", "or", "orderby", "select", "var", "when", "where", "with", "yield"]

namespace Document

/-- The text of a token. -/
def wordAt (d : Document) (i : Nat) : String := (d.token i).text

/-- The kind of a token. -/
def kindAt (d : Document) (i : Nat) : TokenKind := (d.token i).kind

theorem lt_size_of_kindAt {d : Document} {i : Nat} (h : d.kindAt i ≠ .endOfFile) : i < d.size := by
  by_cases hi : i < d.tokens.size
  · exact hi
  · exact absurd (show (d.tokens.getD i .endOfFile).kind = .endOfFile by simp [Array.getD, hi, Token.endOfFile]) h

theorem getD_texts (d : Document) (i : Nat) : (d.tokens.toList.map (·.text)).getD i "" = d.wordAt i := by
  rw [List.getD_eq_getElem?_getD, List.getElem?_map, wordAt, token, Array.getD_eq_getD_getElem?,
    ← Array.getElem?_toList]
  cases d.tokens.toList[i]? <;> rfl

/-- Is the token a type name that is a keyword? -/
def isPredefined (d : Document) (i : Nat) : Bool :=
  d.kindAt i == .keyword && predefinedTypes.contains (d.wordAt i)

/-- Is the token the given keyword? -/
def isKeywordAt (d : Document) (i : Nat) (word : String) : Bool := d.kindAt i == .keyword && d.wordAt i == word

/-- Can the token name a type, a member or a local? -/
def isNameAt (d : Document) (i : Nat) : Bool :=
  d.kindAt i == .identifier && !contextualWords.contains (d.wordAt i)

/-- Is the text of the token one of the words? -/
def isOneOf (d : Document) (i : Nat) (words : List String) : Bool := words.contains (d.wordAt i)

/-- The texts of the tokens from `first` up to, not including, `stop`, one after another. -/
def joined (d : Document) (first stop : Nat) : String :=
  String.join ((List.range' first (stop - first)).map d.wordAt)

end Document

namespace Outline

def word (o : Outline) (i : Nat) : String := o.document.wordAt i

def kind (o : Outline) (i : Nat) : TokenKind := o.document.kindAt i

/-- The number of the end-of-file token. -/
def eof (o : Outline) : Nat := o.document.endOfFile

/-- The number of the last token before end-of-file, zero when there is none. -/
def lastReal (o : Outline) : Nat := o.eof - 1

/-- The tokens before end-of-file. -/
def ids (o : Outline) : List Nat := List.range o.eof

/-- Is the text of token `i` the given one? -/
def isAt (o : Outline) (i : Nat) (text : String) : Bool := o.word i == text

def isOneOf (o : Outline) (i : Nat) (words : List String) : Bool := o.document.isOneOf i words

def isKeyword (o : Outline) (i : Nat) (word : String) : Bool := o.document.isKeywordAt i word

def isIdentifier (o : Outline) (i : Nat) : Bool := o.kind i == .identifier

def isName (o : Outline) (i : Nat) : Bool := o.document.isNameAt i

def isPredefined (o : Outline) (i : Nat) : Bool := o.document.isPredefined i

def isModifier (o : Outline) (i : Nat) : Bool := o.isOneOf i modifiers

/-- The bracket that closes the bracket `i`. -/
def closing? (o : Outline) (i : Nat) : Option Nat := o.brackets.closing? i

/-- The bracket that opens what the bracket `i` closes. -/
def opening? (o : Outline) (i : Nat) : Option Nat := o.brackets.opening? i

/-- The bracket that belongs together with bracket `i`. -/
def partner? (o : Outline) (i : Nat) : Option Nat := o.brackets.partner? i

/-- The `>` of the type argument list that token `i` opens. -/
def typeArgsEnd? (o : Outline) (i : Nat) : Option Nat := (o.typeArgsEnd.getD i none).filter (i < ·)

/-- The `<` of the type argument list that token `i` closes. -/
def typeArgsStart? (o : Outline) (i : Nat) : Option Nat := (o.typeArgsStart.getD i none).filter (· < i)

/-- Does token `i` close a type argument list? -/
def closesTypeArgs (o : Outline) (i : Nat) : Bool := (o.typeArgsStart? i).isSome

/-- Is token `i` an angle bracket of a type argument list? -/
def isTypeArgBracket (o : Outline) (i : Nat) : Bool := (o.typeArgsStart? i).isSome || (o.typeArgsEnd? i).isSome

theorem lt_of_typeArgsEnd? {o : Outline} {i c : Nat} (h : o.typeArgsEnd? i = some c) : i < c := by
  simpa using (Option.filter_eq_some_iff.1 h).2

theorem lt_of_typeArgsStart? {o : Outline} {i c : Nat} (h : o.typeArgsStart? i = some c) : c < i := by
  simpa using (Option.filter_eq_some_iff.1 h).2

/-- Is token `i` a literal, the words `true`, `false` and `null` among them? -/
def isLiteral (o : Outline) (i : Nat) : Bool :=
  match o.kind i with
  | .numericLiteral | .stringLiteral | .characterLiteral => true
  | .keyword => o.isOneOf i ["true", "false", "null"]
  | _ => false

/-- Is token `i` one of the keywords `this` and `base`? -/
def isInstanceWord (o : Outline) (i : Nat) : Bool := o.isKeyword i "this" || o.isKeyword i "base"

/-- Can token `i` end an operand of a binary operator? -/
def isOperandEnd (o : Outline) (i : Nat) : Bool :=
  o.isName i || o.isLiteral i || o.isInstanceWord i || o.isOneOf i [")", "]", "++", "--"]

/-- Can token `i` start a chain of member accesses? -/
def isPrimary (o : Outline) (i : Nat) : Bool :=
  o.isIdentifier i || o.isLiteral i || o.isPredefined i || o.isInstanceWord i

/-- Can token `i` end what a call or an index applies to? -/
def isPostfixTarget (o : Outline) (i : Nat) : Bool :=
  o.isIdentifier i || o.closesTypeArgs i || o.isOneOf i [")", "]"] || o.isInstanceWord i

end Outline

end LayoutLint
