import LayoutLint.Token
import LayoutLint.Token.Literal
import LayoutLint.Text.Number
/-!
# Scan — the lexical classes

What stands at the head of a text: a piece of trivia (`Trivia.scan?`), or the token that starts there (`Token.scan`),
with its length in characters. Every text that is not empty starts with one or the other.
-/
namespace LayoutLint

/-- The words that are no names. -/
def keywords : List String := [
  "abstract", "as", "base", "bool", "break", "byte", "case", "catch", "char", "checked", "class", "const", "continue",
  "decimal", "default", "delegate", "do", "double", "else", "enum", "event", "explicit", "extern", "false", "finally",
  "fixed", "float", "for", "foreach", "goto", "if", "implicit", "in", "int", "interface", "internal", "is", "lock",
  "long", "namespace", "new", "null", "object", "operator", "out", "override", "params", "private", "protected",
  "public", "readonly", "ref", "return", "sbyte", "sealed", "short", "sizeof", "stackalloc", "static", "string",
  "struct", "switch", "this", "throw", "true", "try", "typeof", "uint", "ulong", "unchecked", "unsafe", "ushort",
  "using", "virtual", "void", "volatile", "while"]

def isKeyword (word : String) : Bool := keywords.contains word

/-- The punctuators of more than one character, longer ones first. A `>` stands alone, except in `>=`, so that type
argument lists that close together are read as such; `?.` is read as two tokens. -/
def punctuators : List String := [
  "??=", "<<=", "??", "=>", "==", "!=", "<=", ">=", "&&", "||", "++", "--", "+=", "-=", "*=", "/=", "%=", "&=", "|=",
  "^=", "<<", "->", "::", ".."]

def isWordStart (c : Char) : Bool := c == '_' || Text.isLetter c

def isWordPart (c : Char) : Bool := c == '_' || Text.isAlphanumeric c

/-- The length of the word at the head of a text. -/
def wordLength (s : List Char) : Nat := (s.takeWhile isWordPart).length

/-- The number of characters before the next line break. -/
def lineLength (s : List Char) : Nat := (s.takeWhile (!isBreakChar ·)).length

/-- The rest of a number after the character `last`. A point belongs to it before a digit, and a sign after an `e`
unless the number is hexadecimal. -/
def numberTailLength (hex : Bool) (last : Char) : List Char → Nat
  | [] => 0
  | c :: r =>
    if c.isAlphanum || c == '_' then numberTailLength hex c r + 1
    else if c == '.' && (r.head?.any Char.isDigit) then numberTailLength hex c r + 1
    else if (c == '+' || c == '-') && !hex && (last == 'e' || last == 'E') then numberTailLength hex c r + 1
    else 0

/-- The length of the number at the head of a text. -/
def numberLength (s : List Char) : Nat :=
  numberTailLength ("0x".toList.isPrefixOf s || "0X".toList.isPrefixOf s) ' ' s

/-- The length of the block comment at the head of a text, up to the end of the text when nothing closes it. -/
def blockCommentLength (s : List Char) : Nat :=
  match Text.find? "*/".toList (s.drop 2) with
  | some n => n + 4
  | none => s.length

/-- White space that breaks no line. -/
def isGap (c : Char) : Bool := Text.isBlank c && !isBreakChar c

/-- The trivia at the head of a text, its kind and its length; `none` where a token starts or the text ends. A directive
is trivia where `directives` allows it: in front of the first token of a line, after white space only. -/
def Trivia.scan? (directives : Bool) (s : List Char) : Option (TriviaKind × Nat) :=
  match s with
  | [] => none
  | c :: _ =>
    if isBreakChar c then some (.endOfLine, breakLength s)
    else if isGap c then some (.whitespace, (s.takeWhile isGap).length)
    else if "//".toList.isPrefixOf s then
      let isDoc := "///".toList.isPrefixOf s && !"////".toList.isPrefixOf s
      some (if isDoc then .structured else .comment, lineLength s)
    else if "/*".toList.isPrefixOf s then
      let isDoc := "/**".toList.isPrefixOf s && !"/**/".toList.isPrefixOf s
      some (if isDoc then .structured else .comment, blockCommentLength s)
    else if directives && c == '#' then some (.structured, lineLength s)
    else none

/-- The length of the punctuator at the head of a text: the first that fits, or one character. -/
def punctuatorLength (s : List Char) : Nat :=
  match punctuators.find? fun p => p.toList.isPrefixOf s with
  | some p => p.length
  | none => 1

/-- The token at the head of a text, its kind and its length. The text is not empty and starts with no trivia. -/
def Token.scan (s : List Char) : TokenKind × Nat :=
  match Literal.stringLength? s with
  | some n => (.stringLiteral, n)
  | none =>
    match s with
    | [] => (.punctuation, 0)
    | c :: r =>
      if c == '\'' then (.characterLiteral, Literal.charBodyLength r + 1)
      else if c == '@' && r.head?.any isWordStart then (.identifier, wordLength r + 1)
      else if isWordStart c then
        let n := wordLength s
        (if isKeyword (String.ofList (s.take n)) then .keyword else .identifier, n)
      else if c.isDigit || (c == '.' && r.head?.any Char.isDigit) then (.numericLiteral, numberLength s)
      else (.punctuation, punctuatorLength s)

end LayoutLint
