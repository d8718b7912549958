import Linewise.Number.Integer

/-!
# Fractions

Rational numbers whose terms are integers of 64 bits. The denominator is
positive, which is part of the type, and what `Fraction.reduce` makes of two
numbers is in lowest terms (`reduce_isLowest`).

Each operation computes the two terms of its result without bounds, as
products and sums of the terms of its operands (`Fraction.terms`), and reduces
them. A result whose reduced terms do not fit is a fault.
-/

namespace Linewise

/-- A rational number. -/
structure Fraction where
  num : Int64
  den : Int64
  den_pos : 0 < den.toInt
deriving DecidableEq

namespace Fraction

/-- The terms have no common divisor. -/
def IsLowest (a : Fraction) : Prop :=
  a.num.toInt.natAbs.gcd a.den.toInt.natAbs = 1

instance (a : Fraction) : Decidable a.IsLowest :=
  inferInstanceAs (Decidable (_ = _))

/-- The terms of `n / d` in lowest form, with the sign on the numerator. -/
def lowestTerms (n d : Int) : Int × Int :=
  let g := n.natAbs.gcd d.natAbs
  let magnitude : Int := (n.natAbs / g : Nat)
  (if (n < 0 ↔ d < 0) then magnitude else -magnitude, (d.natAbs / g : Nat))

theorem lowestTerms_den_pos {n d : Int} (hd : d ≠ 0) : 0 < (lowestTerms n d).2 := by
  have hpos : 0 < d.natAbs := Int.natAbs_pos.2 hd
  have := Nat.div_pos (Nat.le_of_dvd hpos (Nat.gcd_dvd_right n.natAbs d.natAbs))
    (Nat.gcd_pos_of_pos_right _ hpos)
  simp only [lowestTerms]
  omega

theorem lowestTerms_gcd {n d : Int} (hd : d ≠ 0) :
    (lowestTerms n d).1.natAbs.gcd (lowestTerms n d).2.natAbs = 1 := by
  have hg : 0 < n.natAbs.gcd d.natAbs := Nat.gcd_pos_of_pos_right _ (Int.natAbs_pos.2 hd)
  have h : (lowestTerms n d).1.natAbs = n.natAbs / n.natAbs.gcd d.natAbs := by
    simp only [lowestTerms]
    split
    · exact Int.natAbs_natCast _
    · exact (Int.natAbs_neg _).trans (Int.natAbs_natCast _)
  rw [h]
  exact Nat.gcd_div_gcd_div_gcd_of_pos_right (Int.natAbs_pos.2 hd)

/-- The fraction with the given terms, if there is one. -/
def ofTerms? (n d : Int) : Option Fraction := do
  let num ← Integer.narrow? n
  let den ← Integer.narrow? d
  if h : 0 < den.toInt then some { num, den, den_pos := h } else none

theorem ofTerms?_eq_some_iff {n d : Int} {a : Fraction} :
    ofTerms? n d = some a ↔ a.num.toInt = n ∧ a.den.toInt = d := by
  simp only [ofTerms?, Option.bind_eq_bind, Option.bind_eq_some_iff, Integer.narrow?_eq_some_iff]
  constructor
  · rintro ⟨num, hn, den, hd, h⟩
    split at h
    · obtain rfl := Option.some.inj h
      exact ⟨hn, hd⟩
    · contradiction
  · rintro ⟨hn, hd⟩
    exact ⟨a.num, hn, a.den, hd, by rw [dif_pos a.den_pos]⟩

/-- The fraction equal to `n / d`. -/
def reduce (n d : Int) : Except Fault Fraction :=
  if d = 0 then .error .zeroDenominator
  else
    match ofTerms? (lowestTerms n d).1 (lowestTerms n d).2 with
    | some a => .ok a
    | none => .error (.fractionOverflow (lowestTerms n d).1 (lowestTerms n d).2)

theorem reduce_eq_ok_iff {n d : Int} {a : Fraction} :
    reduce n d = .ok a ↔
      d ≠ 0 ∧ a.num.toInt = (lowestTerms n d).1 ∧ a.den.toInt = (lowestTerms n d).2 := by
  unfold reduce
  split
  · simp_all
  · next hd =>
    rw [← ofTerms?_eq_some_iff]
    split <;> simp_all

theorem reduce_isLowest {n d : Int} {a : Fraction} (h : reduce n d = .ok a) : a.IsLowest := by
  obtain ⟨hd, hn', hd'⟩ := reduce_eq_ok_iff.1 h
  rw [IsLowest, hn', hd']
  exact lowestTerms_gcd hd

/-- The fraction equal to an integer. -/
def ofInteger (n : Int64) : Fraction where
  num := n
  den := 1
  den_pos := by decide

theorem ofInteger_isLowest (n : Int64) : (ofInteger n).IsLowest :=
  Nat.gcd_one_right _

/-- The terms of the result of an operation, not reduced. -/
def terms (op : Arithmetic) (a b : Fraction) : Int × Int :=
  let (an, ad, bn, bd) := (a.num.toInt, a.den.toInt, b.num.toInt, b.den.toInt)
  match op with
  | .add => (an * bd + bn * ad, ad * bd)
  | .subtract => (an * bd - bn * ad, ad * bd)
  | .multiply => (an * bn, ad * bd)
  | .divide => (an * bd, ad * bn)

/-- An operation on fractions. -/
def arithmetic (op : Arithmetic) (a b : Fraction) : Except Fault Fraction :=
  reduce (terms op a b).1 (terms op a b).2

def negate (a : Fraction) : Except Fault Fraction :=
  reduce (-a.num.toInt) a.den.toInt

def modulus (a : Fraction) : Except Fault Fraction :=
  reduce a.num.toInt.natAbs a.den.toInt

/-- The quotient of the terms, the remainder dropped. -/
def toInteger (a : Fraction) : Int64 :=
  a.num / a.den

/-- The quotient of the reals nearest to the terms. -/
def toReal (a : Fraction) : Float :=
  Integer.toReal a.num / Integer.toReal a.den

/-- Both terms raised to a real power, each rounded to the nearest integer. A
    negative power swaps the terms first. -/
def power (a : Fraction) (exponent : Float) : Except Fault Fraction := do
  let (n, d) := if exponent < 0.0 then (a.den, a.num) else (a.num, a.den)
  let n ← Integer.ofReal ((Integer.toReal n).pow exponent.abs)
  let d ← Integer.ofReal ((Integer.toReal d).pow exponent.abs)
  reduce n.toInt d.toInt

/-- The text of a fraction. -/
def text (a : Fraction) : String :=
  Integer.text a.num ++ "/" ++ Integer.text a.den

end Fraction

end Linewise
