import LayoutLint.Edit
/-!
# FinalBreak — the end of the text

A text ends well when it is empty, or when its last line is empty and the line before it is not blank. Lines that start
inside the last token, or inside the last comment or directive, are not blank lines at the end. The edit for the end
cuts the trivia after the last token behind its last comment or directive and adds a line break where none is left.
-/
namespace LayoutLint

/-- What is wrong with the end of a text. -/
inductive FinalBreak where
  /-- The last line holds something, and no break ends it. -/
  | missing (span : Span)
  /-- Blank lines stand at the end, from the start of the span on. -/
  | stacked (span : Span)
  deriving DecidableEq, Repr

def FinalBreak.span : FinalBreak → Span
  | missing span | stacked span => span

namespace Document

/-- The trivia after the last token: what trails it, then what leads the end-of-file token. -/
def tailTrivia (d : Document) : List PlacedTrivia :=
  (match d.lastToken? with
    | some last => d.slotTrivia last .trailing
    | none => []) ++ d.slotTrivia d.endOfFile .leading

/-- The number of pieces up to and including the last one that is not blank. -/
def contentLength (ts : List PlacedTrivia) : Nat := ts.length - (ts.reverse.takeWhile (·.trivia.isBlank)).length

/-- What is wrong with the end of the text. -/
def finalBreak? (d : Document) : Option FinalBreak :=
  if d.isEmpty then none
  else
    let contentEnd := (d.lastToken?.map fun last => (d.span last).stop).getD 0
    let triviaEnd := ((d.tailTrivia.reverse.find? fun t => !t.trivia.isBlank).map (·.span.stop)).getD 0
    match d.lines.lines.toList.reverse with
    | [] => none
    | last :: before =>
      if !last.isEmpty then some (.missing ⟨contentEnd, d.length⟩)
      else
        let blank := before.takeWhile fun l => l.isBlank && max contentEnd triviaEnd ≤ l.start
        blank.getLast?.map fun first => FinalBreak.stacked ⟨first.start, d.length⟩

/-- How many pieces of the trivia after the last token stay when the end reported at `start` is mended: those up to the
last comment or directive, and those that end before `start`. -/
def keptAtEnd (d : Document) (start : Nat) : Nat :=
  let tail := d.tailTrivia
  max (contentLength tail) (tail.takeWhile (·.span.stop ≤ start)).length

/-- The edit that mends the end of the text reported at `span`; `none` when the end is well already, or when `span`
starts inside a comment or directive that stays. -/
def finalBreakEdit? (d : Document) (ruleId : String) (span : Span) : Option Edit :=
  let tail := d.tailTrivia
  let contentFree := d.lastToken?.isNone && tail.all (·.trivia.isBlank)
  let keep := if contentFree then 0 else d.keptAtEnd span.start
  let kept := tail.take keep
  if kept.any fun t => t.span.start < span.start && span.start < t.span.stop then none
  else
    let endsWithBreak := kept.getLast?.any (·.trivia.isEndOfLine)
    let added := if contentFree || endsWithBreak then [] else [Trivia.endOfLine d.lineBreak]
    if keep = tail.length ∧ added = [] then none
    else
      let eofLength := (d.token d.endOfFile).leading.length
      let atEof (split : Nat) : List Splice := [⟨d.endOfFile, .leading, keep - split, eofLength, added⟩]
      let splices : List Splice :=
        match d.lastToken? with
        | some last =>
          let split := (d.token last).trailing.length
          if keep ≤ split then
            [⟨last, .trailing, keep, split, added⟩, Splice.replaceAll d d.endOfFile .leading []]
          else atEof split
        | none => atEof 0
      some { ruleId, span, splices := splices.filter (!·.isNoop) }

end Document

end LayoutLint
