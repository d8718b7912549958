import Linewise.Number.Fraction

/-!
# Approximation of reals by fractions

A whole real is equal to a fraction. Any other is approximated by the
convergents of its continued fraction, computed in reals: if `z` is the rest
after some terms, the next rest is the reciprocal of the fractional part of
`z`, and the next denominator is the sum of the denominator before last and of
the last one as many times as the whole part of the rest says.

The expansion stops at the first convergent that is close enough, when there
is no rest, or when the next denominator would exceed the bound. Only the
denominator is bounded: when rounding keeps the convergents of a large real
from getting close, the numerator of the last one may not fit, and its lowest
64 bits are taken. The fraction is then neither close nor in lowest terms.
-/

namespace Linewise.Fraction

/-- A convergent this close to the real is taken. -/
def tolerance : Float := 0.000005

/-- The largest denominator of an approximation. -/
def bound : Int := 999999999999999999

/-- The largest number of terms of an expansion. -/
def maxTerms : Nat := 64

/-- A convergent, the denominator before it and the rest of the expansion. -/
structure Convergent where
  num : Int
  den : Int
  previous : Int
  rest : Float
  den_pos : 0 < den
  den_le : den ≤ bound

/-- The whole number nearest to a real, as the first convergent. -/
def Convergent.first (x : Float) : Convergent where
  num := (Real.nearest? x).getD 0
  den := 1
  previous := 0
  rest := x
  den_pos := by decide
  den_le := by decide

/-- The last of at most the given number of further convergents of `x`. -/
def Convergent.expand (x : Float) : Nat → Convergent → Convergent
  | 0, c => c
  | n + 1, c =>
    let rest := 1.0 / (c.rest - Float.ofInt (Real.whole c.rest))
    let den := c.den * Real.whole rest + c.previous
    if h : 0 < den ∧ den ≤ bound then
      let num := Real.whole (x * Float.ofInt den + 0.5)
      let next : Convergent :=
        { num, den, previous := c.den, rest, den_pos := h.1, den_le := h.2 }
      let error := (x - Float.ofInt num / Float.ofInt den).abs
      if error < tolerance || Real.isWhole rest then next else expand x n next
    else c

/-- The fraction that a convergent is, with the sign given by a factor. -/
def Convergent.fraction (sign : Int) (c : Convergent) : Fraction :=
  match reduce (sign * c.num) c.den with
  | .ok a => a
  | .error _ => {
      num := Int64.ofInt (sign * c.num)
      den := Int64.ofInt c.den
      den_pos := by
        have := c.den_pos
        have := c.den_le
        rw [Int64.toInt_ofInt_of_le (by omega) (by unfold bound at *; omega)]
        exact c.den_pos }

/-- The fraction taken for a real. What is too large for an approximation, and
    what is no number, becomes the largest one, and what is too small the
    smallest that is not zero. -/
def ofReal (x : Float) : Fraction :=
  let sign : Int := if x < 0.0 then -1 else 1
  let magnitude := x.abs
  if Real.isWhole magnitude && magnitude ≤ Float.ofInt bound then
    ofInteger (Int64.ofInt (sign * Real.whole magnitude))
  else if magnitude < 1.0e-18 then
    { num := Int64.ofInt sign, den := Int64.ofInt bound, den_pos := by decide }
  else if 1.0e18 < magnitude || !magnitude.isFinite then
    ofInteger (Int64.ofInt (sign * bound))
  else
    (Convergent.expand magnitude maxTerms (.first magnitude)).fraction sign

end Linewise.Fraction
