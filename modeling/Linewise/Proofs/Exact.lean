import Linewise.Number
import Linewise.Proofs.Wide
import Mathlib

/-!
# Exact arithmetic

Integers and fractions are rational numbers (`Number.value?`), and so is the result of
an operation on them (`Arithmetic.result?`). The answer is that result, unless it has no
place: an integer if both operands are and the operation is no division, and otherwise
a fraction in lowest terms (`Number.Exact`).

* A fraction is reduced to the numerator and the denominator of the rational number
  (`Fraction.lowestTerms_eq`), so that only a result whose lowest terms do not fit in
  64 bits is refused (`Fraction.exact_reduce`).
* The terms of a result have its value, whatever the operation is
  (`Fraction.terms_value`).
* All this needs no more than 128 bits (`Wide.arithmetic?_eq`).
-/

namespace Linewise

/-- The number fits in 64 bits. -/
def Integer.Fits (n : Int) : Prop :=
  Int64.minValue.toInt ≤ n ∧ n ≤ Int64.maxValue.toInt

/-- The rational number that a fraction is. -/
def Fraction.value (a : Fraction) : ℚ :=
  a.num.toInt / a.den.toInt

/-- The result of an operation on rational numbers, if there is one. -/
def Arithmetic.result? : Arithmetic → ℚ → ℚ → Option ℚ
  | add, x, y => some (x + y)
  | subtract, x, y => some (x - y)
  | multiply, x, y => some (x * y)
  | divide, x, y => if y = 0 then none else some (x / y)

theorem Arithmetic.divide_of_ne {x y : ℚ} (hy : y ≠ 0) : divide.result? x y = some (x / y) :=
  if_neg hy

namespace Number

/-- The rational number that a number is, if it is not a real. -/
def value? : Number → Option ℚ
  | integer n => some n.toInt
  | real _ => none
  | fraction a => some a.value

def isInteger : Number → Bool
  | integer _ => true
  | _ => false

/-- The result of an operation is to be an integer. -/
def staysInteger (op : Arithmetic) (a b : Number) : Bool :=
  a.isInteger && b.isInteger && decide (op ≠ .divide)

/-- The number is `q`, as an integer if `whole` says so, and else as a fraction in lowest
    terms. -/
inductive Stands : Bool → ℚ → Number → Prop
  | integer (n : Int64) : Stands true n.toInt (.integer n)
  | fraction {a : Fraction} (h : a.IsLowest) : Stands false a.value (.fraction a)

/-- There is such a number: its terms fit in 64 bits. -/
def Fits (whole : Bool) (q : ℚ) : Prop :=
  Integer.Fits q.num ∧ if whole then q.den = 1 else Integer.Fits q.den

/-- The answer is the rational number `q?`, if there is one and it fits, and else a fault of
    arithmetic. -/
structure Exact (whole : Bool) (q? : Option ℚ) (answer : Except Fault Number) : Prop where
  ok_iff : (∃ r, answer = .ok r) ↔ ∃ q, q? = some q ∧ Fits whole q
  stands : ∀ r, answer = .ok r → ∃ q, q? = some q ∧ Stands whole q r
  kind : ∀ f, answer = .error f → f.report.kind = .arithmetic

theorem exact_ok {whole : Bool} {q : ℚ} {r : Number} (hfits : Fits whole q)
    (hstands : Stands whole q r) : Exact whole (some q) (.ok r) where
  ok_iff := ⟨fun _ => ⟨q, rfl, hfits⟩, fun _ => ⟨r, rfl⟩⟩
  stands := by
    rintro _ ⟨⟩
    exact ⟨q, rfl, hstands⟩
  kind _ h := by cases h

theorem exact_error {whole : Bool} {q? : Option ℚ} {f : Fault} (hf : f.report.kind = .arithmetic)
    (hfits : ∀ q, q? = some q → ¬Fits whole q) : Exact whole q? (.error f) where
  ok_iff := by
    constructor
    · rintro ⟨r, h⟩
      cases h
    · rintro ⟨q, hq, h⟩
      exact absurd h (hfits q hq)
  stands _ h := by cases h
  kind := by
    rintro _ ⟨⟩
    exact hf

end Number

/-! ## Integers -/

namespace Integer

theorem exists_narrow?_iff {n : Int} : (∃ a, narrow? n = some a) ↔ Fits n := by
  rw [narrow?, Fits]
  split <;> simp_all

/-- What is narrowed is exact. -/
theorem exact_narrow (n : Int) {f : Fault} (hf : f.report.kind = .arithmetic) :
    Number.Exact true (some n) (.integer <$> match narrow? n with
      | some a => .ok a
      | none => .error f) := by
  have hfits : Number.Fits true n ↔ Fits n := by
    simp [Number.Fits]
  cases h : narrow? n with
  | some a =>
    obtain rfl := narrow?_eq_some_iff.1 h
    exact Number.exact_ok (hfits.2 (exists_narrow?_iff.1 ⟨a, h⟩)) (.integer a)
  | none =>
    refine Number.exact_error hf ?_
    rintro _ ⟨⟩ hq
    obtain ⟨a, ha⟩ := exists_narrow?_iff.2 (hfits.1 hq)
    cases h.symm.trans ha

theorem exact_arithmetic {op : Arithmetic} (hop : op ≠ .divide) (a b : Int64) :
    Number.Exact true (op.result? a.toInt b.toInt) (.integer <$> arithmetic op a b) := by
  have hexact : op.result? a.toInt b.toInt = some (exact op a.toInt b.toInt : ℚ) := by
    cases op with
    | divide => exact absurd rfl hop
    | _ => simp [Arithmetic.result?, exact]
  rw [hexact]
  exact exact_narrow _ rfl

theorem exact_negate (a : Int64) :
    Number.Exact true (some (-(a.toInt : ℚ))) (.integer <$> negate a) := by
  rw [← Int.cast_neg]
  exact exact_narrow _ rfl

theorem exact_modulus (a : Int64) :
    Number.Exact true (some |(a.toInt : ℚ)|) (.integer <$> modulus a) := by
  rw [← Int.cast_abs, Int.abs_eq_natAbs]
  exact exact_narrow _ rfl

end Integer

/-! ## Fractions -/

namespace Fraction

variable {n d : Int}

/-- The lowest terms are those of the rational number. -/
theorem lowestTerms_eq (n : Int) (hd : d ≠ 0) :
    lowestTerms n d = ((n / d : ℚ).num, ((n / d : ℚ).den : Int)) := by
  -- The terms have no common divisor, and the same quotient. For the latter the sign may
  -- as well be on the numerator.
  have hquotient : ((lowestTerms n d).1 / (lowestTerms n d).2 : ℚ) = n / d := by
    obtain ⟨n', d', hpos, hlowest, hvalue⟩ : ∃ n' d' : Int, 0 < d' ∧
        lowestTerms n' d' = lowestTerms n d ∧ (n' / d' : ℚ) = n / d := by
      by_cases hneg : d < 0
      · exact ⟨-n, -d, by omega, lowestTerms_neg_neg n hd, by push_cast; exact neg_div_neg_eq _ _⟩
      · exact ⟨n, d, by omega, rfl, rfl⟩
    rw [← hvalue, ← hlowest, lowestTerms_of_pos n' hpos]
    have hgcd := Int.gcd_pos_of_ne_zero_right n' (Int.ne_of_gt hpos)
    have hn := Int.tdiv_mul_cancel (Int.gcd_dvd_left n' d')
    have hd := Int.tdiv_mul_cancel (Int.gcd_dvd_right n' d')
    generalize n'.gcd d' = g at hgcd hn hd
    calc ((n'.tdiv g : Int) / (d'.tdiv g : Int) : ℚ)
        = ((n'.tdiv g : Int) * g) / ((d'.tdiv g : Int) * g) :=
          (mul_div_mul_right _ _ (Nat.cast_ne_zero.2 (Nat.ne_of_gt hgcd))).symm
      _ = n' / d' := by exact_mod_cast congrArg₂ (fun n d : Int => (n / d : ℚ)) hn hd
  have hpos := lowestTerms_den_pos (n := n) hd
  have hcoprime := lowestTerms_gcd (n := n) hd
  rw [← hquotient, Rat.num_div_eq_of_coprime hpos hcoprime,
    Rat.den_div_eq_of_coprime hpos hcoprime]

theorem exists_ofTerms?_iff (hd : 0 < d) :
    (∃ a, ofTerms? n d = some a) ↔ Integer.Fits n ∧ Integer.Fits d := by
  rw [← Integer.exists_narrow?_iff, ← Integer.exists_narrow?_iff]
  constructor
  · rintro ⟨a, ha⟩
    obtain ⟨hn, hd⟩ := ofTerms?_eq_some_iff.1 ha
    exact ⟨⟨_, Integer.narrow?_eq_some_iff.2 hn⟩, _, Integer.narrow?_eq_some_iff.2 hd⟩
  · rintro ⟨⟨num, hnum⟩, den, hden⟩
    rw [Integer.narrow?_eq_some_iff] at hnum hden
    exact ⟨⟨num, den, hden ▸ hd⟩, ofTerms?_eq_some_iff.2 ⟨hnum, hden⟩⟩

/-- What is reduced is exact. -/
theorem exact_reduce (n d : Int) :
    Number.Exact false (Arithmetic.divide.result? n d) (.fraction <$> reduce n d) := by
  by_cases hd : d = 0
  · rw [reduce, if_pos hd, Arithmetic.result?, if_pos (Int.cast_eq_zero.2 hd)]
    refine Number.exact_error rfl ?_
    rintro q ⟨⟩
  have hpos : 0 < ((n / d : ℚ).den : Int) := Int.natCast_pos.2 (Rat.den_pos _)
  rw [reduce, if_neg hd, Arithmetic.result?, if_neg (mt Int.cast_eq_zero.1 hd), lowestTerms_eq n hd]
  cases h : ofTerms? (n / d : ℚ).num (n / d : ℚ).den with
  | some a =>
    obtain ⟨hnum, hden⟩ := ofTerms?_eq_some_iff.1 h
    have hvalue : a.value = n / d := by
      rw [value, hnum, hden]
      exact Rat.num_div_den _
    have hlowest : a.IsLowest := by
      rw [IsLowest, hnum, hden, Int.natAbs_natCast]
      exact (n / d : ℚ).reduced
    exact Number.exact_ok ((exists_ofTerms?_iff hpos).1 ⟨a, h⟩) (hvalue ▸ .fraction hlowest)
  | none =>
    refine Number.exact_error rfl ?_
    rintro _ ⟨⟩ hfits
    obtain ⟨a, ha⟩ := (exists_ofTerms?_iff hpos).2 hfits
    cases h.symm.trans ha

theorem den_ne_zero (a : Fraction) : (a.den.toInt : ℚ) ≠ 0 :=
  Int.cast_ne_zero.2 (Int.ne_of_gt a.den_pos)

/-- The terms of a result have its value. -/
theorem terms_value (op : Arithmetic) (a b : Fraction) :
    Arithmetic.divide.result? (terms op a b).1 (terms op a b).2 = op.result? a.value b.value := by
  have ha := a.den_ne_zero
  have hb := b.den_ne_zero
  have hdens : ((a.den.toInt * b.den.toInt : Int) : ℚ) ≠ 0 := by
    rw [Int.cast_mul]
    exact mul_ne_zero ha hb
  cases op with
  | add =>
    refine (Arithmetic.divide_of_ne hdens).trans (congrArg some ?_)
    rw [value, value, div_add_div _ _ ha hb, ← Int.cast_mul, ← Int.cast_mul, ← Int.cast_mul,
      ← Int.cast_add, Int.mul_comm a.den.toInt b.num.toInt]
    rfl
  | subtract =>
    refine (Arithmetic.divide_of_ne hdens).trans (congrArg some ?_)
    rw [value, value, div_sub_div _ _ ha hb, ← Int.cast_mul, ← Int.cast_mul, ← Int.cast_mul,
      ← Int.cast_sub, Int.mul_comm a.den.toInt b.num.toInt]
    rfl
  | multiply =>
    refine (Arithmetic.divide_of_ne hdens).trans (congrArg some ?_)
    rw [value, value, div_mul_div_comm, ← Int.cast_mul, ← Int.cast_mul]
    rfl
  | divide =>
    by_cases hzero : (b.num.toInt : ℚ) = 0
    · have hden : ((a.den.toInt * b.num.toInt : Int) : ℚ) = 0 := by
        rw [Int.cast_mul, hzero, mul_zero]
      rw [value, value, hzero, zero_div]
      exact if_pos hden
    · have hden : ((a.den.toInt * b.num.toInt : Int) : ℚ) ≠ 0 := by
        rw [Int.cast_mul]
        exact mul_ne_zero ha hzero
      rw [value, value, Arithmetic.divide_of_ne (div_ne_zero hzero hb), div_div_div_eq,
        ← Int.cast_mul, ← Int.cast_mul]
      refine (Arithmetic.divide_of_ne hden).trans (congrArg some ?_)
      rfl

theorem exact_arithmetic (op : Arithmetic) (a b : Fraction) :
    Number.Exact false (op.result? a.value b.value) (.fraction <$> arithmetic op a b) := by
  rw [← terms_value]
  exact exact_reduce _ _

theorem exact_negate (a : Fraction) :
    Number.Exact false (some (-a.value)) (.fraction <$> a.negate) := by
  have h := exact_reduce (-a.num.toInt) a.den.toInt
  rwa [Arithmetic.divide_of_ne a.den_ne_zero, Int.cast_neg, neg_div] at h

theorem exact_modulus (a : Fraction) :
    Number.Exact false (some |a.value|) (.fraction <$> a.modulus) := by
  have hden : |(a.den.toInt : ℚ)| = a.den.toInt := abs_of_pos (Int.cast_pos.2 a.den_pos)
  have h := exact_reduce a.num.toInt.natAbs a.den.toInt
  rw [Arithmetic.divide_of_ne a.den_ne_zero, ← hden, ← Int.abs_eq_natAbs, Int.cast_abs,
    ← abs_div] at h
  rwa [modulus, ← Int.abs_eq_natAbs]

theorem value_ofInteger (n : Int64) : (ofInteger n).value = n.toInt := by
  have hone : ((ofInteger n).den.toInt : ℚ) = 1 := Int.cast_one
  rw [value, hone, div_one]
  rfl

end Fraction

/-! ## Numbers -/

namespace Number

variable {a b : Number} {x y : ℚ}

theorem exact_of_value? (op : Arithmetic) (ha : a.value? = some x) (hb : b.value? = some y) :
    Exact (staysInteger op a b) (op.result? x y) (arithmetic op a b) := by
  cases a with
  | real r => cases ha
  | integer n =>
    cases ha
    cases b with
    | real r => cases hb
    | integer k =>
      cases hb
      by_cases hop : op = .divide
      · subst hop
        exact Fraction.exact_reduce n.toInt k.toInt
      · have hwhole : staysInteger op (.integer n) (.integer k) = true := decide_eq_true hop
        rw [hwhole, arithmetic, if_neg hop]
        exact Integer.exact_arithmetic hop n k
    | fraction b =>
      cases hb
      rw [← Fraction.value_ofInteger]
      exact Fraction.exact_arithmetic op (.ofInteger n) b
  | fraction a =>
    cases ha
    cases b with
    | real r => cases hb
    | integer k =>
      cases hb
      rw [← Fraction.value_ofInteger]
      exact Fraction.exact_arithmetic op a (.ofInteger k)
    | fraction b =>
      cases hb
      exact Fraction.exact_arithmetic op a b

theorem exact_negate (ha : a.value? = some x) : Exact a.isInteger (some (-x)) a.negate := by
  cases a with
  | real r => cases ha
  | integer n =>
    cases ha
    exact Integer.exact_negate n
  | fraction a =>
    cases ha
    exact Fraction.exact_negate a

theorem exact_modulus (ha : a.value? = some x) : Exact a.isInteger (some |x|) a.modulus := by
  cases a with
  | real r => cases ha
  | integer n =>
    cases ha
    exact Integer.exact_modulus n
  | fraction a =>
    cases ha
    exact Fraction.exact_modulus a

end Number

/-- Arithmetic on integers and fractions gives the exact result or, where that does not fit,
    a fault, and all that it computes on the way has a place in 128 bits. -/
theorem arithmetic_exact :
    (∀ (op : Arithmetic) (a b : Number) (x y : ℚ), a.value? = some x → b.value? = some y →
      Number.Exact (Number.staysInteger op a b) (op.result? x y) (Number.arithmetic op a b)) ∧
    (∀ (a : Number) (x : ℚ), a.value? = some x →
      Number.Exact a.isInteger (some (-x)) a.negate ∧
        Number.Exact a.isInteger (some |x|) a.modulus) ∧
    (∀ n d : Int64, Number.Exact false (Arithmetic.divide.result? n.toInt d.toInt)
      (.fraction <$> Fraction.reduce n.toInt d.toInt)) ∧
    (∀ (op : Arithmetic) (a b : Fraction),
      Wide.arithmetic? op a b = some (Fraction.arithmetic op a b)) ∧
    (∀ a : Fraction, Wide.negate? a = some a.negate ∧ Wide.modulus? a = some a.modulus) ∧
    ∀ n d : Int64, Wide.reduce? n.toInt d.toInt = some (Fraction.reduce n.toInt d.toInt) :=
  ⟨fun op _ _ _ _ ha hb => Number.exact_of_value? op ha hb,
    fun _ _ ha => ⟨Number.exact_negate ha, Number.exact_modulus ha⟩,
    fun n d => Fraction.exact_reduce n.toInt d.toInt, Wide.arithmetic?_eq,
    fun a => ⟨Wide.negate?_eq a, Wide.modulus?_eq a⟩,
    fun n d => Wide.reduce?_eq (Wide.small_toInt n) (Wide.small_toInt d)⟩

/-- One and a half. -/
theorem arithmetic_exact_half :
    let half : Fraction := ⟨1, 2, by decide⟩
    Number.value? (.integer 1) = some 1 ∧ Number.value? (.fraction half) = some half.value ∧
      Number.Exact false (some (1 + half.value))
        (Number.arithmetic .add (.integer 1) (.fraction half)) := by
  intro half
  have hone : Number.value? (.integer 1) = some 1 := congrArg some Int.cast_one
  exact ⟨hone, rfl,
    arithmetic_exact.1 .add (.integer 1) (.fraction half) 1 half.value hone rfl⟩

end Linewise
