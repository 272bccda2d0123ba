import LayoutLint.Syntax.Outline
/-!
# Walk — looking for a token outside of brackets

The end of a header, of a body or of an expression is the first token with one of some texts, where brackets opened on
the way are jumped over together with what they hold.
-/
namespace LayoutLint

/-- How a walk ends. -/
inductive Walk where
  /-- At a token with one of the texts looked for. -/
  | found (i : Nat)
  /-- At a bracket that nothing closes. -/
  | unclosed (i : Nat)
  /-- At or after the end-of-file token. -/
  | finished (i : Nat)
  deriving DecidableEq, Repr

namespace Walk

/-- The token a walk ends at. -/
def stop : Walk → Nat
  | found i | unclosed i | finished i => i

end Walk

namespace Outline

/-- Walks from token `i` to the first token with a text in `stops`, jumping over brackets that open with a text in
`jumps`. -/
def walk (o : Outline) (stops jumps : List String) (i : Nat) : Walk :=
  if i < o.eof then
    if o.isOneOf i stops then .found i
    else if o.isOneOf i jumps then
      match _h : o.closing? i with
      | some close => o.walk stops jumps (close + 1)
      | none => .unclosed i
    else o.walk stops jumps (i + 1)
  else .finished i
termination_by o.eof - i
decreasing_by
  · have := Brackets.lt_of_closing? _h
    omega
  · omega

/-- The last token of the expression statement that starts at token `i`: its semicolon, or the token before the bracket
that closes what the statement stands in. -/
def expressionEnd (o : Outline) (i : Nat) : Nat :=
  match o.walk [";", ")", "]", "\x7d"] ["(", "[", "\x7b"] i with
  | .found j => if o.isAt j ";" then j else if i < j then j - 1 else i
  | .unclosed _ | .finished _ => o.lastReal

end Outline

end LayoutLint
