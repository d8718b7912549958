import Linewise.Number.Fraction
import Mathlib

/-!
# Fractions in 128 bits

The terms of a result may be as large as two products of 64 bits, and their greatest
common divisor has to be found before they can be narrowed. All of it is done without
bounds in `Fraction.arithmetic`; here it is done step by step in integers of 128 bits,
where each product, sum, quotient and remainder has to have a place (`Wide.place?`).

* `gcd?_eq`: Euclid's algorithm finds the greatest common divisor, also of numbers
  that are negative;
* `reduce?_eq`: a fraction is reduced in 128 bits, unless a term is the least number of
  all, which has no opposite;
* `arithmetic?_eq`: no operation gets there, as the denominators are positive.
-/

namespace Linewise

namespace Fraction

variable {d : Int}

/-- The lowest terms of a fraction with a positive denominator are quotients that keep
    the sign. -/
theorem lowestTerms_of_pos (n : Int) (hd : 0 < d) :
    lowestTerms n d = (n.tdiv (n.gcd d), d.tdiv (n.gcd d)) := by
  have hden : ((d.natAbs / n.gcd d : Nat) : Int) = d.tdiv (n.gcd d) := by
    rw [Int.natCast_ediv, Int.natAbs_of_nonneg (Int.le_of_lt hd),
      Int.tdiv_eq_ediv_of_nonneg (Int.le_of_lt hd)]
  rw [lowestTerms, ← hden]
  congr 1
  by_cases hn : n < 0
  · have habs : (n.natAbs : Int) = -n := by omega
    rw [if_neg (by omega), Int.natCast_ediv, habs, ← Int.tdiv_eq_ediv_of_nonneg (by omega),
      Int.neg_tdiv, Int.neg_neg]
    rfl
  · have habs : (n.natAbs : Int) = n := by omega
    rw [if_pos (by omega), Int.natCast_ediv, habs, ← Int.tdiv_eq_ediv_of_nonneg (by omega)]
    rfl

theorem lowestTerms_neg_neg (n : Int) (hd : d ≠ 0) :
    lowestTerms (-n) (-d) = lowestTerms n d := by
  rw [lowestTerms, lowestTerms, Int.natAbs_neg, Int.natAbs_neg]
  congr 1
  by_cases hn : n = 0
  · simp [hn]
  · have hsign : (-n < 0 ↔ -d < 0) ↔ (n < 0 ↔ d < 0) := by omega
    simp only [hsign]

end Fraction

namespace Wide

/-- A number, if it has a place in 128 bits. -/
def place? (n : Int) : Option Int :=
  if -2 ^ 127 ≤ n ∧ n < 2 ^ 127 then some n else none

/-- Euclid's algorithm, with remainders of the sign of the dividend. There is no
    remainder where there is no quotient. -/
def gcd? (a b : Int) : Option Int :=
  if b = 0 then place? a.natAbs
  else (place? (a.tdiv b)).bind fun _ => (place? (a.tmod b)).bind fun _ => gcd? b (a.tmod b)
termination_by b.natAbs
decreasing_by
  rw [Int.natAbs_tmod]
  exact Nat.mod_lt _ (Int.natAbs_pos.2 ‹_›)

/-- The terms of `n / d`, with the sign on the numerator. -/
def signed? (n d : Int) : Option (Int × Int) :=
  if d < 0 then do return (← place? (-n), ← place? (-d)) else some (n, d)

/-- The fraction equal to `n / d`. -/
def reduce? (n d : Int) : Option (Except Fault Fraction) :=
  if d = 0 then some (.error .zeroDenominator)
  else do
    let (n, d) ← signed? n d
    let g := max (← gcd? n d) 1
    let n ← place? (n.tdiv g)
    let d ← place? (d.tdiv g)
    return match Fraction.ofTerms? n d with
      | some a => .ok a
      | none => .error (.fractionOverflow n d)

/-- The terms of the result of an operation, not reduced. -/
def terms? (op : Arithmetic) (a b : Fraction) : Option (Int × Int) := do
  let (an, ad, bn, bd) := (a.num.toInt, a.den.toInt, b.num.toInt, b.den.toInt)
  match op with
  | .add => return (← place? ((← place? (an * bd)) + (← place? (bn * ad))), ← place? (ad * bd))
  | .subtract => return (← place? ((← place? (an * bd)) - (← place? (bn * ad))), ← place? (ad * bd))
  | .multiply => return (← place? (an * bn), ← place? (ad * bd))
  | .divide => return (← place? (an * bd), ← place? (ad * bn))

/-- An operation on fractions. -/
def arithmetic? (op : Arithmetic) (a b : Fraction) : Option (Except Fault Fraction) := do
  let (n, d) ← terms? op a b
  reduce? n d

def negate? (a : Fraction) : Option (Except Fault Fraction) := do
  reduce? (← place? (-a.num.toInt)) a.den.toInt

def modulus? (a : Fraction) : Option (Except Fault Fraction) := do
  reduce? (← place? a.num.toInt.natAbs) a.den.toInt

/-- The number and its opposite have a place. -/
def Small (n : Int) : Prop :=
  n.natAbs < 2 ^ 127

variable {n d a b g : Int}

theorem Small.place? (h : Small n) : place? n = some n := by
  rw [Small] at h
  rw [Wide.place?, if_pos (by omega)]

theorem Small.neg (h : Small n) : Small (-n) := by
  rwa [Small, Int.natAbs_neg]

theorem Small.natAbs (h : Small n) : Small n.natAbs :=
  h

theorem Small.tdiv (h : Small n) (d : Int) : Small (n.tdiv d) := by
  rw [Small, Int.natAbs_tdiv]
  exact Nat.lt_of_le_of_lt (Nat.div_le_self ..) h

theorem Small.tmod (h : Small n) (d : Int) : Small (n.tmod d) := by
  rw [Small, Int.natAbs_tmod]
  exact Nat.lt_of_le_of_lt (Nat.mod_le ..) h

/-- What is found is the greatest common divisor, and nothing on the way is too large. -/
theorem gcd?_eq (ha : Small a) (hb : Small b) : gcd? a b = some (a.gcd b : Int) := by
  -- By induction on the steps of the algorithm: a remainder is no larger than what it is
  -- the remainder of, and has the same divisors in common with the divisor.
  fun_induction gcd? a b with
  | case1 a => rw [ha.natAbs.place?, Int.gcd_zero]
  | case2 a b hne ih =>
    have hgcd : b.gcd (a.tmod b) = a.gcd b := by
      rw [Int.gcd, Int.gcd, Int.natAbs_tmod, Nat.gcd_comm, ← Nat.gcd_rec, Nat.gcd_comm]
    rw [(ha.tdiv b).place?, (ha.tmod b).place?, Option.bind_some, Option.bind_some,
      ih hb (ha.tmod b), hgcd]

/-- The terms are reduced in 128 bits as they are without bounds. -/
theorem reduce?_eq (hn : Small n) (hd : Small d) : reduce? n d = some (Fraction.reduce n d) := by
  by_cases hzero : d = 0
  · rw [reduce?, if_pos hzero, Fraction.reduce, if_pos hzero]
  -- With the sign on the numerator the lowest terms are the same.
  obtain ⟨n', d', hsigned, hn', hd', hpos, hlowest⟩ :
      ∃ n' d', signed? n d = some (n', d') ∧ Small n' ∧ Small d' ∧ 0 < d' ∧
        Fraction.lowestTerms n' d' = Fraction.lowestTerms n d := by
    by_cases hneg : d < 0
    · refine ⟨-n, -d, ?_, hn.neg, hd.neg, by omega, Fraction.lowestTerms_neg_neg n hzero⟩
      rw [signed?, if_pos hneg, hn.neg.place?, hd.neg.place?]
      rfl
    · exact ⟨n, d, by rw [signed?, if_neg hneg], hn, hd, by omega, rfl⟩
  have hg : max (n'.gcd d' : Int) 1 = n'.gcd d' := by
    have := Int.gcd_pos_of_ne_zero_right n' (Int.ne_of_gt hpos)
    omega
  rw [reduce?, if_neg hzero, hsigned]
  simp only [Option.bind_eq_bind, Option.bind_some, gcd?_eq hn' hd', hg, (hn'.tdiv _).place?,
    (hd'.tdiv _).place?]
  rw [Fraction.reduce, if_neg hzero, ← hlowest, Fraction.lowestTerms_of_pos n' hpos]
  rfl

/-! ## Terms of 64 bits -/

theorem natAbs_toInt_le (a : Int64) : a.toInt.natAbs ≤ 2 ^ 63 := by
  have hle := a.minValue_le_toInt
  have hlt := a.toInt_le
  rw [show Int64.minValue.toInt = -2 ^ 63 from rfl] at hle
  rw [show Int64.maxValue.toInt = 2 ^ 63 - 1 from rfl] at hlt
  omega

theorem natAbs_den_lt (a : Fraction) : a.den.toInt.natAbs < 2 ^ 63 := by
  have hpos := a.den_pos
  have hlt := a.den.toInt_le
  rw [show Int64.maxValue.toInt = 2 ^ 63 - 1 from rfl] at hlt
  omega

theorem small_toInt (a : Int64) : Small a.toInt :=
  Nat.lt_of_le_of_lt (natAbs_toInt_le a) (by decide)

/-- A product of two terms is small. -/
theorem small_mul (ha : a.natAbs ≤ 2 ^ 63) (hb : b.natAbs ≤ 2 ^ 63) : Small (a * b) := by
  rw [Small, Int.natAbs_mul]
  exact Nat.lt_of_le_of_lt (Nat.mul_le_mul ha hb) (by decide)

/-- A product with a denominator is so small that two of them can be added. -/
theorem natAbs_mul_lt (ha : a.natAbs ≤ 2 ^ 63) (hb : b.natAbs < 2 ^ 63) :
    (a * b).natAbs < 2 ^ 126 :=
  calc (a * b).natAbs = a.natAbs * b.natAbs := Int.natAbs_mul a b
    _ < 2 ^ 63 * 2 ^ 63 := Nat.mul_lt_mul_of_le_of_lt ha hb (by decide)
    _ = 2 ^ 126 := by decide

/-- The terms of a result, and all that they are computed from, are small. -/
theorem terms?_eq (op : Arithmetic) (a b : Fraction) :
    terms? op a b = some (Fraction.terms op a b) ∧
      Small (Fraction.terms op a b).1 ∧ Small (Fraction.terms op a b).2 := by
  have han := natAbs_toInt_le a.num
  have hbn := natAbs_toInt_le b.num
  have had := natAbs_den_lt a
  have hbd := natAbs_den_lt b
  have hleft := natAbs_mul_lt han hbd
  have hright := natAbs_mul_lt hbn had
  have hdens : Small (a.den.toInt * b.den.toInt) := small_mul (Nat.le_of_lt had) (Nat.le_of_lt hbd)
  have hleft' : Small (a.num.toInt * b.den.toInt) := small_mul han (Nat.le_of_lt hbd)
  have hright' : Small (b.num.toInt * a.den.toInt) := small_mul hbn (Nat.le_of_lt had)
  cases op with
  | add =>
    have hsum : Small (a.num.toInt * b.den.toInt + b.num.toInt * a.den.toInt) := by
      have hle := Int.natAbs_add_le (a.num.toInt * b.den.toInt) (b.num.toInt * a.den.toInt)
      rw [Small]
      omega
    refine ⟨?_, hsum, hdens⟩
    simp [terms?, Fraction.terms, hleft'.place?, hright'.place?, hsum.place?, hdens.place?]
  | subtract =>
    have hdiff : Small (a.num.toInt * b.den.toInt - b.num.toInt * a.den.toInt) := by
      have hle := Int.natAbs_sub_le (a.num.toInt * b.den.toInt) (b.num.toInt * a.den.toInt)
      rw [Small]
      omega
    refine ⟨?_, hdiff, hdens⟩
    simp [terms?, Fraction.terms, hleft'.place?, hright'.place?, hdiff.place?, hdens.place?]
  | multiply =>
    have hnums : Small (a.num.toInt * b.num.toInt) := small_mul han hbn
    refine ⟨?_, hnums, hdens⟩
    simp [terms?, Fraction.terms, hnums.place?, hdens.place?]
  | divide =>
    have hden : Small (a.den.toInt * b.num.toInt) := small_mul (Nat.le_of_lt had) hbn
    refine ⟨?_, hleft', hden⟩
    simp [terms?, Fraction.terms, hleft'.place?, hden.place?]

/-- No step of an operation on fractions leaves 128 bits. -/
theorem arithmetic?_eq (op : Arithmetic) (a b : Fraction) :
    arithmetic? op a b = some (Fraction.arithmetic op a b) := by
  obtain ⟨hterms, hn, hd⟩ := terms?_eq op a b
  rw [arithmetic?, hterms]
  exact reduce?_eq hn hd

theorem negate?_eq (a : Fraction) : negate? a = some a.negate := by
  have hneg := (small_toInt a.num).neg
  rw [negate?, hneg.place?]
  exact reduce?_eq hneg (small_toInt a.den)

theorem modulus?_eq (a : Fraction) : modulus? a = some a.modulus := by
  have habs := (small_toInt a.num).natAbs
  rw [modulus?, habs.place?]
  exact reduce?_eq habs (small_toInt a.den)

end Wide

end Linewise
