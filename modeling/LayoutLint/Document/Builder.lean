import LayoutLint.Document
/-!
# Builder — a document piece by piece

Tokens and trivia are handed over in the order of the text. Trivia that waits for its token becomes leading trivia of
the next one, or of the end-of-file token. Trailing trivia goes to the last token that is not missing, unless trivia
already waits; then it waits too.
-/
namespace LayoutLint

structure DocumentBuilder where
  tokens : Array Token := #[]
  /-- Trivia that waits for its token. -/
  pending : List Trivia := []

namespace DocumentBuilder

def leading (b : DocumentBuilder) (t : Trivia) : DocumentBuilder := { b with pending := b.pending ++ [t] }

/-- Adds a whole token. The trivia that waits is put before the token's own. -/
def push (b : DocumentBuilder) (t : Token) : DocumentBuilder :=
  { tokens := b.tokens.push { t with leading := b.pending ++ t.leading }, pending := [] }

def token (b : DocumentBuilder) (kind : TokenKind) (text : String) : DocumentBuilder := b.push { kind, text }

/-- Adds a token that the program lacks. Trivia that waits goes on waiting. -/
def missing (b : DocumentBuilder) (kind : TokenKind) : DocumentBuilder :=
  { b with tokens := b.tokens.push (.absent kind) }

/-- The number of the last token that is not missing. -/
def lastPresent? (b : DocumentBuilder) : Option Nat :=
  (List.range b.tokens.size).reverse.find? fun i => !(b.tokens.getD i .endOfFile).missing

def trailing (b : DocumentBuilder) (t : Trivia) : DocumentBuilder :=
  match b.pending, b.lastPresent? with
  | [], some i => { b with tokens := b.tokens.modify i fun token => { token with trailing := token.trailing ++ [t] } }
  | _, _ => b.leading t

/-- Closes the document. -/
def finish (b : DocumentBuilder) : Except DocumentError Document :=
  Document.ofTokens (b.tokens.push { Token.endOfFile with leading := b.pending })

end DocumentBuilder

end LayoutLint
