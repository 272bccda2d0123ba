import LayoutLint.Syntax.Node
import LayoutLint.Syntax.TokenSet
import LayoutLint.Syntax.Types
/-!
# Casts — a type in parentheses in front of its operand

A parenthesis that nothing has claimed opens a cast when a type fills it, when nothing in front of it could be called
with it, and when an operand follows. After a predefined type more can be an operand, as the type cannot be read as an
expression in parentheses.
-/
namespace LayoutLint.Outline

/-- The words whose parenthesis opens the head of a statement or an operand. -/
def parenHeads : List String := [
  "catch", "checked", "default", "fixed", "for", "foreach", "if", "lock", "nameof", "sizeof", "switch", "typeof",
  "unchecked", "using", "when", "while"]

/-- The keywords that can start the operand of a cast. -/
def operandStarts : List String := [
  "this", "base", "new", "typeof", "sizeof", "default", "checked", "unchecked", "true", "false", "null", "stackalloc",
  "delegate"]

/-- Can token `i` start the operand of a cast to a type, which may be a predefined one? -/
def startsOperand (o : Outline) (i : Nat) (predefined : Bool) : Bool :=
  match o.kind i with
  | .identifier => !o.isOneOf i ["and", "or", "not", "when", "with"]
  | .numericLiteral | .stringLiteral | .characterLiteral => true
  | .keyword => o.isOneOf i operandStarts || (predefined && o.isPredefined i)
  | .punctuation => o.isOneOf i ["(", "!", "~"] || (predefined && o.isOneOf i ["-", "+", "++", "--", "&", "*"])
  | .endOfFile => false

/-- Can the parenthesis at token `i` open a cast, from what stands in front of it? -/
def canOpenCast (o : Outline) (i : Nat) : Bool :=
  i == 0 || !(o.isName (i - 1) || o.isOneOf (i - 1) [")", "]"] || o.closesTypeArgs (i - 1) ||
    o.isOneOf (i - 1) parenHeads)

/-- The cast that opens at token `i`, by its closing parenthesis and its operand. -/
def castAt? (o : Outline) (i : Nat) : Option (Nat × Nat) := do
  let close ← o.closing? i
  let last ← o.castTypeEnd? (i + 1)
  let predefined := last == i + 1 && o.isPredefined last
  if last + 1 == close && o.startsOperand (close + 1) predefined then return (close, close + 1) else none

/-- The casts of a document. -/
def casts (o : Outline) (claimed : TokenSet) : List (Nat × Nat) :=
  o.ids.filterMap fun i => if o.isAt i "(" && !claimed.has i && o.canOpenCast i then o.castAt? i else none

end LayoutLint.Outline
