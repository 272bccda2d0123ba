import LayoutLint.Text.Measure
import LayoutLint.Trivia
/-!
# Token — a piece of a program with the trivia around it

A token has its own text, the trivia before it and the trivia after it. Its full text is the three in order, and its
full width the number of bytes of that (`width_fullText`). Tokens are named by their place in the document, counted from
zero.
-/
namespace LayoutLint

inductive TokenKind where
  | identifier
  | keyword
  | punctuation
  | numericLiteral
  | stringLiteral
  | characterLiteral
  /-- The token that closes every document. -/
  | endOfFile
  deriving DecidableEq, Repr

structure Token where
  kind : TokenKind
  text : String
  leading : List Trivia := []
  trailing : List Trivia := []
  /-- The token stands for one that the program lacks. It has no text and no trivia. -/
  missing : Bool := false
  deriving DecidableEq, Repr

/-- One of the two lists of trivia of a token. -/
inductive Slot where
  | leading
  | trailing
  deriving DecidableEq, Repr

namespace Token

/-- The token that closes a document, without trivia. -/
def endOfFile : Token := { kind := .endOfFile, text := "" }

instance : Inhabited Token := ⟨endOfFile⟩

/-- A token that the program lacks. -/
def absent (kind : TokenKind) : Token := { kind, text := "", missing := true }

def isEndOfFile (t : Token) : Bool := t.kind == .endOfFile

/-- A token without text and without trivia. -/
def isBare (t : Token) : Bool := t.text.isEmpty && t.leading.isEmpty && t.trailing.isEmpty

/-- The trivia on one side of the token. -/
def trivia (t : Token) : Slot → List Trivia
  | .leading => t.leading
  | .trailing => t.trailing

/-- The token with other trivia on one side. -/
def withTrivia (t : Token) (slot : Slot) (ts : List Trivia) : Token :=
  match slot with
  | .leading => { t with leading := ts }
  | .trailing => { t with trailing := ts }

def textWidth (t : Token) : Nat := t.text.utf8ByteSize

def leadingWidth (t : Token) : Nat := Trivia.listWidth t.leading

def trailingWidth (t : Token) : Nat := Trivia.listWidth t.trailing

/-- The number of bytes of the token and its trivia, counted without a bound. It fits in 32 bits when it is at most
`maxBytes`, as that of a token of a document is. -/
def fullWidth (t : Token) : Nat := t.leadingWidth + t.textWidth + t.trailingWidth

/-- The texts that make up the full text, in order. -/
def pieces (t : Token) : List String := t.leading.map (·.text) ++ t.text :: t.trailing.map (·.text)

/-- The token's text with its trivia. -/
def fullText (t : Token) : String := String.join t.pieces

theorem utf8ByteSize_join (l : List String) : (String.join l).utf8ByteSize = total (l.map String.utf8ByteSize) := by
  rw [Text.utf8ByteSize_eq_width, String.toList_join]
  induction l with
  | nil => rfl
  | cons s l ih => rw [List.flatMap_cons, Text.width_append, ih, ← Text.utf8ByteSize_eq_width]; simp

theorem width_fullText (t : Token) : t.fullText.utf8ByteSize = t.fullWidth := by
  have hw : Trivia.width = fun t => t.text.utf8ByteSize := rfl
  simp [fullText, utf8ByteSize_join, pieces, fullWidth, leadingWidth, trailingWidth, textWidth, Trivia.listWidth,
    Function.comp_def, hw, Nat.add_assoc]

end Token

end LayoutLint
