import Linewise.Real.Binary

/-!
# The text of a real

A real is written with the fewest decimal digits that read back as the same
real, and always in full: there is no exponent, and no point where there is no
fractional part.

A decimal `p · 10 ^ j` reads back as a finite real if it lies in the interval
of the numbers that round to it (`Rounding`). The fewest digits are those of
the coarsest grid, of multiples of `10 ^ j`, that has a point in the interval
(`shortest`). Of two such points the nearer is taken, and the larger one if
they are equally near.
-/

namespace Linewise.Real

/-- A positive real `middle` and the numbers that round to it, from `low` to
    `high`, all in multiples of `2 ^ exponent`. -/
structure Rounding where
  low : Nat
  middle : Nat
  high : Nat
  exponent : Int
  /-- The ends belong to the interval: a number half-way between two reals
      rounds to the one with an even mantissa. -/
  closed : Bool

/-- The interval around a finite real. The gap below a power of two is half of
    the gap above it. -/
def Finite.rounding (f : Finite) : Rounding where
  low := if f.mantissa = Nat.pow 2 52 then 4 * f.mantissa - 1 else 4 * f.mantissa - 2
  middle := 4 * f.mantissa
  high := 4 * f.mantissa + 2
  exponent := f.exponent - 2
  closed := f.mantissa % 2 == 0

namespace Rounding

variable (r : Rounding)

/-- `n`, a number of multiples of `2 ^ r.exponent`, in multiples of
    `10 ^ j / r.gridStep j`. -/
def scale (j : Int) (n : Nat) : Nat :=
  n * Nat.pow 2 r.exponent.toNat * Nat.pow 10 (-j).toNat

/-- The distance of two neighbours on the grid of multiples of `10 ^ j`, in
    the unit of `r.scale j`. -/
def gridStep (j : Int) : Nat :=
  Nat.pow 2 (-r.exponent).toNat * Nat.pow 10 j.toNat

/-- The multiple `p` of `10 ^ j` rounds to the real. -/
def admits (j : Int) (p : Nat) : Bool :=
  let n := p * r.gridStep j
  if r.closed then r.scale j r.low ≤ n && n ≤ r.scale j r.high
  else r.scale j r.low < n && n < r.scale j r.high

/-- The multiple of `10 ^ j` that rounds to the real and is nearest to it. -/
def gridPoint? (j : Int) : Option Nat :=
  let middle := r.scale j r.middle
  let step := r.gridStep j
  let p := middle / step
  if r.admits j p then
    if r.admits j (p + 1) && (2 * p + 1) * step ≤ 2 * middle then some (p + 1) else some p
  else if r.admits j (p + 1) then some (p + 1)
  else none

/-- A number of decimal places before the point that the real does not
    exceed. -/
def places : Int :=
  let n := r.middle * Nat.pow 2 r.exponent.toNat
  let d := Nat.pow 2 (-r.exponent).toNat
  if d ≤ n then (Nat.toDigits 10 (n / d)).length
  else 2 - ((Nat.toDigits 10 (d / n)).length : Int)

/-- The first grid with a point in the interval, from that of `10 ^ j` on to
    finer ones, with that point. The last grid that is tried gives the point
    below the real. -/
def search : Nat → Int → Nat × Int
  | 0, j => (r.scale j r.middle / r.gridStep j, j)
  | n + 1, j =>
    match r.gridPoint? j with
    | some p => (p, j)
    | none => search n (j - 1)

/-- The decimal `p · 10 ^ j` with the fewest digits that rounds to the real.
    Seventeen digits always do. -/
def shortest : Nat × Int :=
  r.search 20 r.places

end Rounding

/-- The decimal `p · 10 ^ j` written out. -/
def positional (p : Nat) (j : Int) : List Char :=
  let digits := Nat.toDigits 10 p
  match j with
  | .ofNat n => digits ++ List.replicate n '0'
  | .negSucc n =>
    let digits := List.replicate (n + 2 - digits.length) '0' ++ digits
    let point := digits.length - (n + 1)
    digits.take point ++ '.' :: digits.drop point

/-- The text of a finite real. -/
def Finite.text (f : Finite) : String :=
  let magnitude :=
    if f.mantissa = 0 then ['0']
    else
      let (p, j) := f.rounding.shortest
      positional p j
  String.ofList (if f.negative then '-' :: magnitude else magnitude)

/-- The text of a real. -/
def text (x : Float) : String :=
  match denotation x with
  | .notANumber => "NaN"
  | .infinite negative => if negative then "-inf" else "inf"
  | .finite f => f.text

end Linewise.Real
