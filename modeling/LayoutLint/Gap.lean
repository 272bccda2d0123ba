import LayoutLint.Edit
/-!
# Gap — what stands between two adjacent tokens

Between two tokens stand the trivia after the left one and then the trivia before the right one, and nothing else. A
contract says what a gap should hold: nothing, or one space. Checking a gap reports its region when the contract is
broken; the edit for a reported region finds the two tokens again from the region alone.
-/
namespace LayoutLint

/-- What a gap should hold. -/
inductive GapContract where
  | noWhitespace
  | singleSpace
  deriving DecidableEq, Repr

/-- The region between two tokens. -/
def Document.gapSpan (d : Document) (left right : Nat) : Span := ⟨(d.span left).stop, (d.span right).start⟩

namespace GapContract

/-- What should stand after the left token. Nothing should stand before the right one. -/
def trailing : GapContract → List Trivia
  | noWhitespace => []
  | singleSpace => [.space]

/-- The region to report when the gap breaks the contract. A space that is left out is reported on the right token. A
gap at a missing token is never reported, as nothing could mend it. -/
def check? (c : GapContract) (d : Document) (left right : Nat) : Option Span :=
  let l := d.token left
  let r := d.token right
  if l.missing || r.missing then none
  else
    match c with
    | noWhitespace => if l.trailing.isEmpty && r.leading.isEmpty then none else some (d.gapSpan left right)
    | singleSpace =>
      match l.trailing with
      | [] => some (d.span right)
      | [only] => if only.isSingleSpace then none else some (d.gapSpan left right)
      | _ => some (d.gapSpan left right)

/-- The edit that brings the gap reported at `span` in line with the contract. Its right token is the first one that
starts at the region's start or later. -/
def edit? (c : GapContract) (d : Document) (ruleId : String) (span : Span) : Option Edit :=
  let right := d.tokenFrom span.start
  if right = 0 then none
  else
    let left := right - 1
    if (d.token left).missing || (d.token right).missing then none
    else
      some {
        ruleId
        span := d.gapSpan left right
        splices := (Splice.setList? d left .trailing c.trailing).toList ++
          (Splice.setList? d right .leading []).toList }

end GapContract

end LayoutLint
