import Linewise.Number.Approximation

/-!
# Numbers

Integers, reals and fractions. The left operand of an operation decides the
kind of its result: with a real on the left it is a real, and with a fraction
on the left a fraction. An integer on the left takes the kind of the right
operand, but for the quotient of two integers, which is a fraction.
-/

namespace Linewise

inductive Number where
  | integer (n : Int64)
  | real (x : Float)
  | fraction (f : Fraction)
deriving DecidableEq

namespace Number

/-- The real that stands for a number. -/
def toReal : Number → Float
  | integer n => Integer.toReal n
  | real x => x
  | fraction f => f.toReal

/-- The integer that stands for a number: reals are rounded, and of fractions
    the fractional part is dropped. -/
def toInteger : Number → Except Fault Int64
  | integer n => .ok n
  | real x => Integer.ofReal x
  | fraction f => .ok f.toInteger

/-- The fraction that stands for a number. -/
def toFraction : Number → Fraction
  | integer n => .ofInteger n
  | real x => .ofReal x
  | fraction f => f

/-- An operation on reals. -/
def realArithmetic (op : Arithmetic) (a b : Float) : Float :=
  match op with
  | .add => a + b
  | .subtract => a - b
  | .multiply => a * b
  | .divide => a / b

/-- An operation on numbers. -/
def arithmetic (op : Arithmetic) : Number → Number → Except Fault Number
  | integer a, integer b =>
    if op = .divide then fraction <$> Fraction.reduce a.toInt b.toInt
    else integer <$> Integer.arithmetic op a b
  | integer a, real b => .ok (real (realArithmetic op (Integer.toReal a) b))
  | integer a, fraction b => fraction <$> Fraction.arithmetic op (.ofInteger a) b
  | real a, b => .ok (real (realArithmetic op a b.toReal))
  | fraction a, b => fraction <$> Fraction.arithmetic op a b.toFraction

/-- A number raised to a power, which is computed in reals whatever the kind of
    the number. -/
def power (a exponent : Number) : Except Fault Number :=
  match a with
  | integer n => integer <$> Integer.ofReal ((Integer.toReal n).pow exponent.toReal)
  | real x => .ok (real (x.pow exponent.toReal))
  | fraction f => fraction <$> f.power exponent.toReal

/-- The magnitude of a number. -/
def modulus : Number → Except Fault Number
  | integer n => integer <$> Integer.modulus n
  | real x => .ok (real x.abs)
  | fraction f => fraction <$> f.modulus

def negate : Number → Except Fault Number
  | integer n => integer <$> Integer.negate n
  | real x => .ok (real (-x))
  | fraction f => fraction <$> f.negate

/-- The tolerance of `=` between reals, relative to the larger magnitude. -/
def epsilon : Float := 1.0e-9

/-- Two reals that differ by at most a billionth of the larger magnitude, or of
    1 if that is larger. -/
def realsEqual (a b : Float) : Bool :=
  let scale := max (max a.abs b.abs) 1.0
  (a - b).abs ≤ epsilon * scale

/-- Two reals that round to the same whole number, or infinities of the same
    sign. -/
def realsAlike (a b : Float) : Bool :=
  match Real.nearest? a, Real.nearest? b with
  | some m, some n => m == n
  | none, none => a == b
  | _, _ => false

/-- The numbers are equal: exactly, or within a tolerance if one is a real. -/
def equal : Number → Number → Bool
  | real a, b => realsEqual a b.toReal
  | a, real b => realsEqual a.toReal b
  | a, b => a.toFraction == b.toFraction

/-- The numbers round to the same whole number. -/
def alike (a b : Number) : Bool :=
  realsAlike a.toReal b.toReal

/-- A comparison of size, between the reals that stand for the numbers. -/
def compare (op : Comparison) (a b : Number) : Bool :=
  let (a, b) := (a.toReal, b.toReal)
  match op with
  | .less => a < b
  | .greater => b < a
  | .atMost => a ≤ b
  | .atLeast => b ≤ a

/-- The text of a number. -/
def text : Number → String
  | integer n => Integer.text n
  | real x => Real.text x
  | fraction f => f.text

end Number

end Linewise
