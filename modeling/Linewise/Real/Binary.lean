/-!
# What a real denotes

A real of the language is a binary floating-point number of 64 bits. Finite
ones denote `± m · 2 ^ e` for a natural number `m` and an integer `e`, and
everything that goes from a real to whole numbers is computed on `m` and `e`,
without rounding on the way:

* `Finite.nearest`: the nearest whole number, a half going away from zero;
* `Finite.whole`: the whole number next to it on the side of zero;
* `Finite.isWhole`: nothing is lost by either.
-/

namespace Linewise.Real

/-- A finite real, `± mantissa · 2 ^ exponent`. -/
structure Finite where
  /-- The sign, which a zero has as well. -/
  negative : Bool
  mantissa : Nat
  exponent : Int
deriving DecidableEq, Repr

/-- What a real denotes. -/
inductive Denotation where
  | notANumber
  | infinite (negative : Bool)
  | finite (f : Finite)
deriving DecidableEq, Repr

/-- What the bits of a real denote: a bit of sign, eleven of exponent and
    fifty-two of mantissa. The mantissa of a nonzero exponent has a leading
    one that is not written. -/
def denotation (x : Float) : Denotation :=
  let bits := x.toBits.toNat
  let negative := bits / Nat.pow 2 63 == 1
  let exponent : Nat := bits / Nat.pow 2 52 % Nat.pow 2 11
  let fraction : Nat := bits % Nat.pow 2 52
  if exponent = Nat.pow 2 11 - 1 then
    if fraction = 0 then .infinite negative else .notANumber
  else if exponent = 0 then .finite ⟨negative, fraction, -1074⟩
  else .finite ⟨negative, Nat.pow 2 52 + fraction, (exponent : Int) - 1075⟩

/-- The finite real that `x` denotes, if it does. -/
def finite? (x : Float) : Option Finite :=
  match denotation x with
  | .finite f => some f
  | _ => none

namespace Finite

/-- The whole number of magnitude `n` on the side of `f`. -/
def signed (f : Finite) (n : Nat) : Int :=
  if f.negative then -n else n

/-- The nearest whole number; a half goes away from zero. -/
def nearest (f : Finite) : Int :=
  match f.exponent with
  | .ofNat e => f.signed (f.mantissa * Nat.pow 2 e)
  | .negSucc e => f.signed ((f.mantissa + Nat.pow 2 e) / Nat.pow 2 (e + 1))

/-- The whole number left when the fractional part is dropped. -/
def whole (f : Finite) : Int :=
  match f.exponent with
  | .ofNat e => f.signed (f.mantissa * Nat.pow 2 e)
  | .negSucc e => f.signed (f.mantissa / Nat.pow 2 (e + 1))

/-- There is no fractional part. -/
def isWhole (f : Finite) : Bool :=
  match f.exponent with
  | .ofNat _ => true
  | .negSucc e => f.mantissa % Nat.pow 2 (e + 1) == 0

end Finite

/-- The nearest whole number to a finite real. -/
def nearest? (x : Float) : Option Int :=
  (finite? x).map Finite.nearest

/-- `x` is finite and has no fractional part. -/
def isWhole (x : Float) : Bool :=
  (finite? x).any Finite.isWhole

/-- `x` without its fractional part; 0 if it is not finite. -/
def whole (x : Float) : Int :=
  (finite? x).elim 0 Finite.whole

end Linewise.Real
