import LayoutLint.Document.Lookup
import LayoutLint.Document.Splice
/-!
# Edit — the change that mends one violation

An edit is a list of splices together with the region of the text that it owns. Edits can be made together when their
regions do not conflict. Here also are the two ways in which rules build splices: setting a whole list of trivia, and
removing trivia inside a region.
-/
namespace LayoutLint

structure Edit where
  ruleId : String
  /-- The region that the edit owns. -/
  span : Span
  splices : List Splice
  deriving DecidableEq, Repr

namespace Edit

/-- An edit without splices changes nothing. -/
def isEmpty (e : Edit) : Bool := e.splices.isEmpty

def conflictsWith (e f : Edit) : Bool := e.span.conflictsWith f.span

/-- Edits in the order of their regions. -/
def le (e f : Edit) : Bool := e.span.le f.span

/-- Edits in the order of their regions, and of their rules where they own the same region. -/
def ruleLe (e f : Edit) : Bool := if e.span = f.span then e.ruleId ≤ f.ruleId else e.span.le f.span

end Edit

namespace Splice

/-- The splice that sets a trivia list; `none` when the list already is what it should be. -/
def setList? (d : Document) (token : Nat) (slot : Slot) (ts : List Trivia) : Option Splice :=
  if (d.token token).trivia slot = ts then none else some (replaceAll d token slot ts)

/-- Splices, the latest first, that also remove the piece of trivia `p`. A piece next to the last one removed is removed
by the same splice. -/
def alsoRemove (done : List Splice) (p : PlacedTrivia) : List Splice :=
  match done with
  | [] => [⟨p.token, p.slot, p.index, p.index + 1, []⟩]
  | s :: rest =>
    if s.token = p.token ∧ s.slot = p.slot ∧ s.stop = p.index then { s with stop := s.stop + 1 } :: rest
    else ⟨p.token, p.slot, p.index, p.index + 1, []⟩ :: s :: rest

/-- The splices that remove pieces of trivia, which are in the order of the text. -/
def removing (ps : List PlacedTrivia) : List Splice := (ps.foldl alsoRemove []).reverse

end Splice

namespace Document

/-- The trivia that has text, lies inside of `span` and passes the test, in the order of the text. -/
def triviaIn (d : Document) (span : Span) (p : Trivia → Bool) : List PlacedTrivia :=
  let first := d.tokenAt span.start
  let tokens := (List.range' first (d.size - first)).takeWhile fun id => d.fullStart id ≤ span.stop
  (tokens.flatMap d.tokenTrivia).filter fun t => !t.span.isEmpty && span.covers t.span && p t.trivia

/-- The splices that remove the trivia that has text, lies inside of `span` and passes the test. -/
def removeTriviaIn (d : Document) (span : Span) (p : Trivia → Bool) : List Splice := Splice.removing (d.triviaIn span p)

end Document

end LayoutLint
