import LayoutLint.Document
/-!
# Lookup — tokens and trivia by their place

A token is found by an offset into the text: `tokenAt` asks for the one around the offset, `tokenFrom` for the first one
that starts there or later. Trivia is listed in the order of the text, each piece with its region.
-/
namespace LayoutLint

/-- A piece of trivia with its place: the token and the list it stands in, its index there, and its region. -/
structure PlacedTrivia where
  token : Nat
  slot : Slot
  index : Nat
  trivia : Trivia
  span : Span
  deriving DecidableEq, Repr

/-- The trivia of a list, the first piece of which has the given index and starts at `offset`. -/
def placeTrivia (token : Nat) (slot : Slot) (index offset : Nat) : List Trivia → List PlacedTrivia
  | [] => []
  | t :: rest =>
    ⟨token, slot, index, t, ⟨offset, offset + t.width⟩⟩ :: placeTrivia token slot (index + 1) (offset + t.width) rest

namespace Document

/-- Where the trivia on one side of a token starts. -/
def slotStart (d : Document) (id : Nat) : Slot → Nat
  | .leading => d.fullStart id
  | .trailing => (d.span id).stop

/-- The trivia on one side of a token. -/
def slotTrivia (d : Document) (id : Nat) (slot : Slot) : List PlacedTrivia :=
  placeTrivia id slot 0 (d.slotStart id slot) ((d.token id).trivia slot)

/-- The trivia before a token and the trivia after it. -/
def tokenTrivia (d : Document) (id : Nat) : List PlacedTrivia :=
  d.slotTrivia id .leading ++ d.slotTrivia id .trailing

/-- All trivia in the order of the text. -/
def trivia (d : Document) : List PlacedTrivia := (List.range d.size).flatMap d.tokenTrivia

/-- The line break the document uses: the first one that stands between tokens, or LF. -/
def lineBreak (d : Document) : String :=
  match d.tokens.toList.findSome? fun t => (t.leading ++ t.trailing).find? Trivia.isEndOfLine with
  | some t => t.text
  | none => "\n"

/-- The last token before end-of-file that is not missing. -/
def lastToken? (d : Document) : Option Nat :=
  (List.range d.endOfFile).reverse.find? fun id => !(d.token id).missing

/-- The token with the byte at `offset` in its text or its trivia; end-of-file for an offset past the end. -/
def tokenAt (d : Document) (offset : Nat) : Nat :=
  if d.length ≤ offset then d.endOfFile
  else firstWhere (fun id => offset < d.fullStart id) 0 d.size - 1

/-- The first token whose text starts at `offset` or later; end-of-file when there is none. -/
def tokenFrom (d : Document) (offset : Nat) : Nat :=
  firstWhere (fun id => offset ≤ (d.span id).start) 0 d.endOfFile

end Document

end LayoutLint
