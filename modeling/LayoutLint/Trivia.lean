import LayoutLint.Total
/-!
# Trivia — the text between tokens

Trivia is what a program's meaning does not depend on: blanks, line breaks, comments and directives. A piece of trivia
is a text with its kind; its place follows from the document it stands in.
-/
namespace LayoutLint

inductive TriviaKind where
  /-- Spaces, tabs and other blanks without a line break. -/
  | whitespace
  /-- One line break: CR LF, LF or CR. -/
  | endOfLine
  /-- A line comment or a block comment. -/
  | comment
  /-- A documentation comment or a directive, its line break left out. -/
  | structured
  /-- Anything else that stands between tokens. -/
  | other
  deriving DecidableEq, Repr

structure Trivia where
  kind : TriviaKind
  text : String
  deriving DecidableEq, Repr

namespace Trivia

def whitespace (text : String) : Trivia := ⟨.whitespace, text⟩

/-- One space, the gap between two words. -/
def space : Trivia := whitespace " "

def endOfLine (text : String) : Trivia := ⟨.endOfLine, text⟩

/-- The number of bytes. -/
def width (t : Trivia) : Nat := t.text.utf8ByteSize

def isEmpty (t : Trivia) : Bool := t.text.isEmpty

def isWhitespace (t : Trivia) : Bool := t.kind == .whitespace

def isEndOfLine (t : Trivia) : Bool := t.kind == .endOfLine

/-- Trivia without content: white space or a line break. -/
def isBlank (t : Trivia) : Bool := t.isWhitespace || t.isEndOfLine

/-- Exactly one space. -/
def isSingleSpace (t : Trivia) : Bool := t.isWhitespace && t.text == " "

/-- The number of bytes of a list of trivia. -/
def listWidth (ts : List Trivia) : Nat := total (ts.map width)

@[simp] theorem listWidth_nil : listWidth [] = 0 := rfl

@[simp] theorem listWidth_cons (t : Trivia) (ts : List Trivia) : listWidth (t :: ts) = t.width + listWidth ts := by
  simp [listWidth]

end Trivia

end LayoutLint
