import LayoutLint.Edit
/-!
# TrailingBlank — white space at the ends of lines

A run of white space is reported when a line break follows it, or the end of the text. A run ends at a token: the next
trivia then does not start where the last one ended.
-/
namespace LayoutLint

/-- A scan over trivia in the order of the text. -/
structure BlankScan where
  /-- The start of the run of white space that goes up to here. -/
  run : Option Nat := none
  /-- Where the last piece of trivia ended. -/
  previousEnd : Nat := 0
  /-- The runs found, the latest first. -/
  found : List Span := []

namespace BlankScan

/-- Reports the run from `start` up to `stop`, unless it is empty. -/
def report (s : BlankScan) (start stop : Nat) : BlankScan :=
  if start < stop then { s with found := ⟨start, stop⟩ :: s.found } else s

/-- Takes a piece of trivia into the scan. -/
def step (s : BlankScan) (t : PlacedTrivia) : BlankScan :=
  let s' : BlankScan :=
    match s.run with
    | some start =>
      if t.span.start != s.previousEnd then { s with run := if t.trivia.isWhitespace then some t.span.start else none }
      else if t.trivia.isEndOfLine then { s.report start t.span.start with run := none }
      else if t.trivia.isWhitespace then s
      else { s with run := none }
    | none => { s with run := if t.trivia.isWhitespace then some t.span.start else none }
  { s' with previousEnd := t.span.stop }

end BlankScan

namespace Document

/-- The runs of white space at the ends of lines and at the end of the text, in the order of the text. -/
def trailingBlanks (d : Document) : List Span :=
  let s := d.trivia.foldl BlankScan.step {}
  let s :=
    match s.run with
    | some start => if s.previousEnd = d.length then s.report start s.previousEnd else s
    | none => s
  s.found.reverse

/-- The edit that removes the white space of a reported run. -/
def trailingBlankEdit? (d : Document) (ruleId : String) (span : Span) : Option Edit :=
  match d.removeTriviaIn span Trivia.isWhitespace with
  | [] => none
  | splices => some { ruleId, span, splices }

end Document

end LayoutLint
