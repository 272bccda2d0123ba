import LayoutLint.Line
import LayoutLint.Token
/-!
# Document — a source text as tokens

A document is a list of tokens that ends in its only end-of-file token and whose missing tokens are bare. Its text is
the full texts of the tokens in order, so the place of every token follows from the tokens before it. A document keeps
its text, its lines and the places of its tokens beside the tokens, each with the equation that defines it; two
documents with the same tokens are therefore equal (`Document.ext_tokens`).

`Document.ofTokens` is the way to make one. It fails at the first token that breaks a rule, and when the text is larger
than an offset of 32 bits can tell.
-/
namespace LayoutLint

/-- The largest number of bytes of a text: the largest offset of 32 bits. -/
def maxBytes : Nat := 4294967295

/-- Why a list of tokens is not a document. -/
inductive DocumentError where
  | missingEndOfFile
  | misplacedEndOfFile (index : Nat)
  | nonEmptyMissingToken (index : Nat)
  | tooLarge
  deriving DecidableEq, Repr

def DocumentError.message : DocumentError → String
  | missingEndOfFile => "document must end with exactly one end-of-file token"
  | misplacedEndOfFile index => s!"end-of-file token at index {index} is not the last token"
  | nonEmptyMissingToken index => s!"missing token at index {index} carries text or trivia"
  | tooLarge => s!"document exceeds {maxBytes} bytes"

/-- Checks tokens, the first of which has number `index` and starts at `offset`, up to the last one. -/
def checkTokensFrom (index offset : Nat) : List Token → Except DocumentError Unit
  | [] => .ok ()
  | t :: rest =>
    if t.isEndOfFile && !rest.isEmpty then .error (.misplacedEndOfFile index)
    else if t.missing && !t.isBare then .error (.nonEmptyMissingToken index)
    else if maxBytes < offset + t.fullWidth then .error .tooLarge
    else checkTokensFrom (index + 1) (offset + t.fullWidth) rest

/-- Do the tokens make a document? -/
def checkTokens (tokens : List Token) : Except DocumentError Unit :=
  match tokens.getLast? with
  | some last => if last.isEndOfFile then checkTokensFrom 0 0 tokens else .error .missingEndOfFile
  | none => .error .missingEndOfFile

/-- The full texts of the tokens in order. -/
def textOf (tokens : List Token) : String := String.join (tokens.map Token.fullText)

/-- Where each token starts, its leading trivia included, when the first one starts at `offset`. -/
def startsFrom (offset : Nat) : List Token → List Nat
  | [] => []
  | t :: rest => offset :: startsFrom (offset + t.fullWidth) rest

theorem utf8ByteSize_textOf (tokens : List Token) :
    (textOf tokens).utf8ByteSize = total (tokens.map Token.fullWidth) := by
  rw [textOf, Token.utf8ByteSize_join, List.map_map]
  congr 2
  exact funext Token.width_fullText

structure Document where
  tokens : Array Token
  /-- Where each token starts, its leading trivia included. -/
  starts : Array Nat
  text : String
  lines : LineTable
  /-- The tokens make a document. -/
  accepted : checkTokens tokens.toList = .ok ()
  starts_eq : starts = (startsFrom 0 tokens.toList).toArray
  text_eq : text = textOf tokens.toList
  lines_eq : lines = LineTable.ofString text

namespace Document

/-- **A document is its tokens.** -/
theorem ext_tokens {d e : Document} (h : d.tokens = e.tokens) : d = e := by
  obtain ⟨_, _, _, _, _, rfl, rfl, rfl⟩ := d
  obtain ⟨_, _, _, _, _, rfl, rfl, rfl⟩ := e
  obtain rfl := h
  rfl

instance : DecidableEq Document := fun d e =>
  decidable_of_iff (d.tokens = e.tokens) ⟨ext_tokens, congrArg Document.tokens⟩

/-- The document of the tokens. -/
def ofTokens (tokens : Array Token) : Except DocumentError Document :=
  match h : checkTokens tokens.toList with
  | .error e => .error e
  | .ok () =>
    let text := textOf tokens.toList
    .ok { tokens, text, starts := (startsFrom 0 tokens.toList).toArray, lines := LineTable.ofString text,
          accepted := h, starts_eq := rfl, text_eq := rfl, lines_eq := rfl }

theorem ofTokens_eq_ok_iff {tokens : Array Token} {d : Document} : ofTokens tokens = .ok d ↔ d.tokens = tokens := by
  unfold ofTokens
  split
  · rename_i e h
    refine ⟨fun h' => (nomatch h'), fun h' => ?_⟩
    rw [← h', d.accepted] at h
    cases h
  · rename_i h
    refine ⟨fun h' => by cases h'; rfl, fun h' => ?_⟩
    exact congrArg Except.ok (ext_tokens h'.symm)

theorem ofTokens_eq_error_iff {tokens : Array Token} {e : DocumentError} :
    ofTokens tokens = .error e ↔ checkTokens tokens.toList = .error e := by
  unfold ofTokens
  split
  · rename_i h; simp [h]
  · rename_i h; simp [h]

/-- The document of the empty text. -/
def blank : Document where
  tokens := #[Token.endOfFile]
  starts := #[0]
  text := ""
  lines := LineTable.ofString ""
  accepted := by rfl
  starts_eq := rfl
  text_eq := by rfl
  lines_eq := rfl

instance : Inhabited Document := ⟨blank⟩

/-- The number of bytes of the text. -/
def length (d : Document) : Nat := d.text.utf8ByteSize

def isEmpty (d : Document) : Bool := d.text.isEmpty

/-- The number of tokens, the end-of-file token included. -/
def size (d : Document) : Nat := d.tokens.size

theorem size_pos (d : Document) : 0 < d.size := by
  have h := d.accepted
  unfold checkTokens at h
  split at h
  · rename_i heq
    have : d.tokens.toList ≠ [] := fun hn => by simp [hn] at heq
    exact List.length_pos_iff.2 this
  · cases h

/-- The number of the end-of-file token. -/
def endOfFile (d : Document) : Nat := d.size - 1

/-- The token with a number. Numbers past the end name a bare end-of-file token. -/
def token (d : Document) (id : Nat) : Token := d.tokens.getD id .endOfFile

/-- Where a token starts, its leading trivia included. -/
def fullStart (d : Document) (id : Nat) : Nat := d.starts.getD id d.length

/-- The region of a token's own text. -/
def span (d : Document) (id : Nat) : Span :=
  let t := d.token id
  let start := d.fullStart id + t.leadingWidth
  ⟨start, start + t.textWidth⟩

/-- The region of a token and its trivia. -/
def fullSpan (d : Document) (id : Nat) : Span :=
  ⟨d.fullStart id, d.fullStart id + (d.token id).fullWidth⟩

/-- The line and column of an offset. -/
def position (d : Document) (offset : Nat) : Position := d.lines.position offset

/-- The lines and columns of a span. -/
def location (d : Document) (s : Span) : Location := d.lines.location s

end Document

end LayoutLint
