/-!
# Decimal — numbers as decimal digits write them

A decimal is `± mantissa · 10 ^ exponent`, kept exactly. What readers with binary numbers of 53 significant bits make of
it is decided by exact arithmetic: whether its value is within their range (`isFinite`), and whether the number nearest
to it is a positive whole number (`isPositiveWhole`).
-/
namespace LayoutLint

structure Decimal where
  negative : Bool
  mantissa : Nat
  exponent : Int
  deriving DecidableEq, Repr

namespace Decimal

/-- The digits and the exponent, which tell a decimal from an integer at sight. -/
def text (d : Decimal) : String := (if d.negative then "-" else "") ++ s!"{d.mantissa}e{d.exponent}"

/-- A power of ten above the value, less than ten times as large unless the value is zero, by its exponent. -/
def order (d : Decimal) : Int := (Nat.toDigits 10 d.mantissa).length + d.exponent

/-- The value without its sign is `numerator / denominator`. -/
def numerator (d : Decimal) : Nat := d.mantissa * Nat.pow 10 d.exponent.toNat

def denominator (d : Decimal) : Nat := Nat.pow 10 (-d.exponent).toNat

/-- Is there a binary number nearest to the value? The largest has 1024 bits, the first 53 of which are ones. -/
def isFinite (d : Decimal) : Bool :=
  if d.mantissa == 0 || d.order < 300 then true
  else if 310 < d.order then false
  else decide (d.numerator < (Nat.pow 2 1024 - Nat.pow 2 970) * d.denominator)

/-- Is the binary number nearest to `num / den`, with 53 significant bits, whole and positive? Among the whole numbers
only the nearest can be it. It has fewer bits, so it is even as a multiple of the last bit and wins a tie. -/
def nearestIsWhole (num den : Nat) : Bool :=
  let n := (2 * num + den) / (2 * den)
  let bits := n.log2
  if n = 0 then false
  else if 52 < bits then true
  else if n * den ≤ num then decide ((num - n * den) * Nat.pow 2 (53 - bits) ≤ den)
  else decide ((n * den - num) * Nat.pow 2 (53 - bits + if n = Nat.pow 2 bits then 1 else 0) ≤ den)

/-- Is the binary number nearest to the value a positive whole number? -/
def isPositiveWhole (d : Decimal) : Bool :=
  if d.negative || d.order < 0 then false
  else if 310 < d.order then true
  else nearestIsWhole d.numerator d.denominator

end Decimal

end LayoutLint
