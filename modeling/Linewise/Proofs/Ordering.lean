import Linewise.Proofs.Binary
import Linewise.Proofs.Equality

/-!
# Ordering of exact numbers

`=` compares integers and fractions exactly, but `<` and the other comparisons compare the
reals that stand for them. The real of a fraction is rounded three times, for its terms and
for their quotient, and is off by at most 7/2 parts in `2 ^ 53` (`Fraction.toReal_stands`).

* Where two numbers are apart by a part in `2 ^ 50` of the larger one, their reals are in the
  same order, and so are those of integers that have 53 bits (`Number.Discernible`). There
  `<`, `=` and `>` agree (`ordering_agrees`).
* Fractions whose terms have 25 bits are that far apart (`Fraction.discernible_of_terms`),
  which is why small numbers show no difference.
* The integers above `2 ^ 53` are not: of `2 ^ 53` and the next one none is less than the
  other, nor are they equal (`large_integers_not_ordered`).
-/

namespace Linewise

/-! ## The reals that stand for exact numbers -/

namespace Real

variable {q x z : ℚ} {u : Float.Model.UnpackedFloat}

/-- What is rounded is multiplied by nearly 1. -/
theorem Rounded.factor (h : Rounded x z) : ∃ α, z = x * α ∧ |α - 1| ≤ 1 / 2 ^ 53 := by
  by_cases hx : x = 0
  · have hz := h.near
    rw [hx, abs_zero, zero_div, sub_zero, abs_nonpos_iff] at hz
    exact ⟨1, by rw [hx, hz, zero_mul], by norm_num⟩
  · refine ⟨z / x, (mul_div_cancel₀ z hx).symm, ?_⟩
    rw [div_sub_one hx, abs_div, div_le_iff₀ (abs_pos.2 hx), one_div_mul_eq_div]
    exact h.near

theorem Rounded.ne_zero (h : Rounded x z) (hx : x ≠ 0) : z ≠ 0 := by
  obtain ⟨α, rfl, hα⟩ := h.factor
  have := abs_le.1 hα
  exact mul_ne_zero hx (by norm_num at *; linarith)

/-- The bounds of the real of an integer of 64 bits, and that it is not between 0 and 1/2. -/
theorem Rounded.bounds {n : ℤ} (h : Rounded n z) (hn : n.natAbs ≤ 2 ^ 63) (hz : z ≠ 0) :
    1 / 2 ≤ |z| ∧ |z| ≤ 2 ^ 64 := by
  obtain ⟨α, rfl, hα⟩ := h.factor
  obtain ⟨hlower, hupper⟩ := abs_le.1 hα
  have hn0 : n ≠ 0 := by
    rintro rfl
    exact hz (by simp)
  have hone : (1 : ℚ) ≤ |(n : ℚ)| := by exact_mod_cast Int.one_le_abs hn0
  have hmax : |(n : ℚ)| ≤ 2 ^ 63 := by
    rw [← Int.cast_abs, Int.abs_eq_natAbs]
    exact_mod_cast hn
  rw [abs_mul, abs_of_pos (a := α) (by norm_num at *; linarith)]
  constructor <;> norm_num at * <;> nlinarith

theorem inRange_quotient (hq : 1 / 2 ≤ |q| ∧ |q| ≤ 2 ^ 64) (hx : 1 / 2 ≤ |x| ∧ |x| ≤ 2 ^ 64) :
    InRange (q / x) := by
  have hpos : 0 < |x| := by linarith
  refine inRange_of_le ?_ ?_ <;> rw [abs_div]
  · rw [le_div_iff₀ hpos]
    linarith
  · rw [div_le_iff₀ hpos]
    linarith

/-- Three factors that are nearly 1, one of them in the denominator. -/
theorem abs_factors_le {α β γ : ℚ} (hα : |α - 1| ≤ 1 / 2 ^ 53) (hβ : |β - 1| ≤ 1 / 2 ^ 53)
    (hγ : |γ - 1| ≤ 1 / 2 ^ 53) : |α * γ / β - 1| ≤ 7 / 2 ^ 54 := by
  obtain ⟨hα, hα'⟩ := abs_le.1 hα
  obtain ⟨hβ, hβ'⟩ := abs_le.1 hβ
  obtain ⟨hγ, hγ'⟩ := abs_le.1 hγ
  have hpos : 0 < β := by linarith
  have hlower : (1 - 1 / 2 ^ 53) * (1 - 1 / 2 ^ 53) ≤ α * γ :=
    mul_le_mul (by linarith) (by linarith) (by norm_num) (by linarith)
  have hupper : α * γ ≤ (1 + 1 / 2 ^ 53) * (1 + 1 / 2 ^ 53) :=
    mul_le_mul (by linarith) (by linarith) (by linarith) (by norm_num)
  rw [abs_le]
  constructor
  · rw [le_sub_iff_add_le, le_div_iff₀ hpos]
    linarith
  · rw [sub_le_iff_le_add, div_le_iff₀ hpos]
    linarith

/-- 53 bits are enough for a real. -/
theorem Normal.exists_eq (h : Normal u q) : ∃ n t : ℤ, |n| ≤ 2 ^ 53 ∧ q = n * 2 ^ t := by
  cases h with
  | zero s => exact ⟨0, 0, by decide, by simp⟩
  | @finite s m e hm hlower hupper =>
    have hle : |(m : ℤ)| ≤ 2 ^ 53 := by
      rw [Nat.abs_cast]
      exact_mod_cast hupper.le
    cases s with
    | negative => exact ⟨-m, e, by rwa [abs_neg], by simp [signed]⟩
    | positive => exact ⟨m, e, hle, by simp [signed]⟩

end Real

theorem Integer.natAbs_le (n : Int64) : n.toInt.natAbs ≤ 2 ^ 63 := by
  have hmin : -2 ^ 63 ≤ n.toInt := n.le_toInt
  have hmax : n.toInt < 2 ^ 63 := n.toInt_lt
  omega

theorem Integer.toReal_stands (n : Int64) :
    ∃ z, Real.Stands z (toReal n) ∧ Real.Rounded n.toInt z :=
  Real.stands_ofInt (natAbs_le n)

/-- A quotient by 1 is exact. -/
theorem Fraction.toReal_ofInteger {n : Int64} {z : ℚ} (h : Real.Stands z (Integer.toReal n)) :
    Real.Stands z (ofInteger n).toReal := by
  obtain ⟨z', hz', hnum⟩ := Integer.toReal_stands n
  obtain rfl := h.unique hz'
  obtain ⟨d, hd, hden⟩ := Integer.toReal_stands 1
  obtain rfl : d = 1 := hden.exact 1 0 (by decide) (by simp)
  obtain ⟨w, hw, hquotient⟩ := h.div hd one_ne_zero fun hz =>
    Real.inRange_quotient (hnum.bounds (Integer.natAbs_le n) (div_ne_zero_iff.1 hz).1)
      (by norm_num)
  rw [div_one] at hquotient
  obtain ⟨k, t, hk, hkt⟩ := h.exists_eq
  obtain rfl := hquotient.exact k t hk hkt
  exact hw

/-- The real of a fraction is off by a little more than three times what is lost by rounding
    once. -/
theorem Fraction.toReal_stands (a : Fraction) :
    ∃ z, Real.Stands z a.toReal ∧ |z - a.value| ≤ 7 / 2 ^ 54 * |a.value| := by
  obtain ⟨n, hn, hnum⟩ := Integer.toReal_stands a.num
  obtain ⟨d, hd, hden⟩ := Integer.toReal_stands a.den
  have hd0 : d ≠ 0 := hden.ne_zero a.den_ne_zero
  obtain ⟨z, hz, hquotient⟩ := hn.div hd hd0 fun h =>
    Real.inRange_quotient (hnum.bounds (Integer.natAbs_le _) (div_ne_zero_iff.1 h).1)
      (hden.bounds (Integer.natAbs_le _) hd0)
  refine ⟨z, hz, ?_⟩
  obtain ⟨α, rfl, hα⟩ := hnum.factor
  obtain ⟨β, rfl, hβ⟩ := hden.factor
  obtain ⟨γ, rfl, hγ⟩ := hquotient.factor
  have hvalue : a.num.toInt * α / (a.den.toInt * β) * γ - a.value =
      a.value * (α * γ / β - 1) := by
    rw [value]
    field_simp
  rw [hvalue, abs_mul, mul_comm]
  exact mul_le_mul_of_nonneg_right (Real.abs_factors_le hα hβ hγ) (abs_nonneg _)

/-! ## Comparing numbers -/

/-- What a comparison should say. -/
def Comparison.holds (x y : ℚ) : Comparison → Bool
  | less => x < y
  | greater => y < x
  | atMost => x ≤ y
  | atLeast => y ≤ x

namespace Number

variable {whole whole' : Bool} {x y : ℚ} {a b : Number}

/-- Reals tell the numbers apart: they are equal, or apart by a part in `2 ^ 50`, or integers
    of 53 bits. -/
def Discernible (whole : Bool) (x : ℚ) (whole' : Bool) (y : ℚ) : Prop :=
  x = y ∨ max |x| |y| ≤ 2 ^ 50 * |x - y| ∨
    (whole = true ∧ whole' = true) ∧ |x| ≤ 2 ^ 53 ∧ |y| ≤ 2 ^ 53

/-- The real of an exact number is that of the fraction that stands for it, is near, and is
    exact for an integer of 53 bits. -/
theorem Stands.toReal (h : Stands whole x a) :
    ∃ z, Real.Stands z a.toReal ∧ Real.Stands z a.toFraction.toReal ∧
      |z - x| ≤ 7 / 2 ^ 54 * |x| ∧ (whole = true → |x| ≤ 2 ^ 53 → z = x) := by
  cases h with
  | integer n =>
    obtain ⟨z, hz, hrounded⟩ := Integer.toReal_stands n
    refine ⟨z, hz, Fraction.toReal_ofInteger hz, ?_, fun _ hn => ?_⟩
    · linarith [hrounded.near, abs_nonneg (n.toInt : ℚ)]
    · exact hrounded.exact n.toInt 0 (by exact_mod_cast hn) (by simp)
  | @fraction a h =>
    obtain ⟨z, hz, hnear⟩ := a.toReal_stands
    exact ⟨z, hz, hz, hnear, nofun⟩

theorem lt_iff_of_near {z w : ℚ} (hz : |z - x| ≤ 7 / 16 * |x - y|)
    (hw : |w - y| ≤ 7 / 16 * |x - y|) : z < w ↔ x < y := by
  obtain ⟨hz, hz'⟩ := abs_le.1 hz
  obtain ⟨hw, hw'⟩ := abs_le.1 hw
  constructor
  · intro h
    by_contra hle
    rw [abs_of_nonneg (by linarith)] at hz hz' hw hw'
    linarith
  · intro h
    rw [abs_of_neg (by linarith)] at hz hz' hw hw'
    linarith

/-- Where numbers are discernible, their reals are in the same order. -/
theorem Discernible.toReal_lt_iff (h : Discernible whole x whole' y) (ha : Stands whole x a)
    (hb : Stands whole' y b) :
    (a.toReal < b.toReal ↔ x < y) ∧ (a.toReal ≤ b.toReal ↔ x ≤ y) := by
  obtain ⟨z, hz, hz', hnear, hexact⟩ := ha.toReal
  obtain ⟨w, hw, hw', hnear', hexact'⟩ := hb.toReal
  rw [hz.lt_iff hw, hz.le_iff hw, ← not_lt, ← not_lt (a := y)]
  suffices horder : (z < w ↔ x < y) ∧ (w < z ↔ y < x) from ⟨horder.1, not_congr horder.2⟩
  rcases h with hxy | hgap | ⟨⟨hwhole, hwhole'⟩, hx, hy⟩
  · rw [← toFraction_inj ha hb] at hxy
    rw [hxy] at hz'
    rw [(toFraction_inj ha hb).1 hxy, hz'.unique hw']
    exact ⟨by simp, by simp⟩
  · have hle : |z - x| ≤ 7 / 16 * |x - y| := by linarith [le_max_left |x| |y|]
    have hle' : |w - y| ≤ 7 / 16 * |x - y| := by linarith [le_max_right |x| |y|]
    refine ⟨lt_iff_of_near hle hle', ?_⟩
    rw [abs_sub_comm x y] at hle hle'
    exact lt_iff_of_near hle' hle
  · rw [hexact hwhole hx, hexact' hwhole' hy]
    exact ⟨Iff.rfl, Iff.rfl⟩

theorem Discernible.symm (h : Discernible whole x whole' y) : Discernible whole' y whole x := by
  rw [Discernible, max_comm, abs_sub_comm, eq_comm, and_comm (a := whole' = true),
    and_comm (a := |y| ≤ 2 ^ 53)]
  exact h

theorem compare_eq (op : Comparison) (ha : Stands whole x a) (hb : Stands whole' y b)
    (h : Discernible whole x whole' y) : compare op a b = op.holds x y := by
  obtain ⟨hlt, hle⟩ := h.toReal_lt_iff ha hb
  obtain ⟨hgt, hge⟩ := h.symm.toReal_lt_iff hb ha
  cases op with
  | less => exact decide_eq_decide.2 hlt
  | greater => exact decide_eq_decide.2 hgt
  | atMost => exact decide_eq_decide.2 hle
  | atLeast => exact decide_eq_decide.2 hge

end Number

namespace Fraction

variable {a b : Fraction}

theorem abs_value_le (hterms : |a.num.toInt| * b.den.toInt ≤ 2 ^ 50)
    (h : a.value ≠ b.value) : |a.value| ≤ 2 ^ 50 * |a.value - b.value| := by
  have ha := a.den_ne_zero
  have hb := b.den_ne_zero
  have hpos : (0 : ℚ) < a.den.toInt * b.den.toInt :=
    mul_pos (Int.cast_pos.2 a.den_pos) (Int.cast_pos.2 b.den_pos)
  have hdifference : a.value - b.value =
      (a.num.toInt * b.den.toInt - a.den.toInt * b.num.toInt : ℤ) /
        (a.den.toInt * b.den.toInt) := by
    rw [value, value, div_sub_div _ _ ha hb]
    push_cast
    rfl
  have hone : (1 : ℚ) ≤ |((a.num.toInt * b.den.toInt - a.den.toInt * b.num.toInt : ℤ) : ℚ)| := by
    rw [← Int.cast_abs]
    refine Int.cast_one_le_of_pos (abs_pos.2 fun hzero => h (sub_eq_zero.1 ?_))
    rw [hdifference, hzero, Int.cast_zero, zero_div]
  have hvalue : |a.value| = |(a.num.toInt : ℚ)| * b.den.toInt / (a.den.toInt * b.den.toInt) := by
    rw [mul_div_mul_right _ _ hb, value, abs_div, abs_of_pos (Int.cast_pos.2 a.den_pos)]
  rw [hvalue, hdifference, abs_div, abs_of_pos hpos, ← mul_div_assoc]
  refine div_le_div_of_nonneg_right ?_ hpos.le
  calc |(a.num.toInt : ℚ)| * b.den.toInt ≤ 2 ^ 50 := by exact_mod_cast hterms
    _ ≤ _ := le_mul_of_one_le_right (by norm_num) hone

/-- Fractions of small terms are discernible. -/
theorem discernible_of_terms (ha : |a.num.toInt| ≤ 2 ^ 25 ∧ a.den.toInt ≤ 2 ^ 25)
    (hb : |b.num.toInt| ≤ 2 ^ 25 ∧ b.den.toInt ≤ 2 ^ 25) :
    Number.Discernible false a.value false b.value := by
  by_cases h : a.value = b.value
  · exact .inl h
  have hproduct {n d : ℤ} (hn : |n| ≤ 2 ^ 25) (hpos : 0 < d) (hd : d ≤ 2 ^ 25) :
      |n| * d ≤ 2 ^ 50 :=
    mul_le_mul hn hd hpos.le (by norm_num)
  refine .inr (.inl (max_le ?_ ?_))
  · exact abs_value_le (hproduct ha.1 b.den_pos hb.2) h
  · rw [abs_sub_comm]
    exact abs_value_le (hproduct hb.1 a.den_pos ha.2) (Ne.symm h)

end Fraction

/-! ## The operators -/

/-- One of three statements is true, and only one. -/
def ExactlyOne (p q r : Prop) : Prop :=
  (p ∨ q ∨ r) ∧ ¬(p ∧ q) ∧ ¬(p ∧ r) ∧ ¬(q ∧ r)

theorem exactlyOne_of_trichotomy (x y : ℚ) : ExactlyOne (x < y) (x = y) (y < x) :=
  ⟨lt_trichotomy x y, fun h => h.1.ne h.2, fun h => h.1.asymm h.2, fun h => h.2.ne' h.1⟩

/-- On exact numbers that are discernible, the comparisons and `=` say what is true of
    rational numbers: exactly one of `<`, `=` and `>` is, and `<=` is if `<` or `=` is. -/
theorem ordering_agrees {whole whole' : Bool} {x y : ℚ} {a b : Number} (m : Memory)
    (ha : Number.Stands whole x a) (hb : Number.Stands whole' y b)
    (h : Number.Discernible whole x whole' y) :
    let answer (op : Comparison) := Operation.compare m op (.number a) (.number b)
    let equal := Operation.equality m .equal (.number a) (.number b)
    let yes : Except Fault Value := .ok (.boolean true)
    (∀ op, answer op = .ok (.boolean (op.holds x y))) ∧ (equal = yes ↔ x = y) ∧
      ExactlyOne (answer .less = yes) (equal = yes) (answer .greater = yes) ∧
      (answer .atMost = yes ↔ answer .less = yes ∨ equal = yes) := by
  intro answer equal yes
  have hanswer (op : Comparison) : answer op = .ok (.boolean (op.holds x y)) := by
    rw [← Number.compare_eq op ha hb h]
    rfl
  have hequal : equal = yes ↔ x = y := by
    rw [Operation.equality_equal_iff (.number ha) (.number hb), Datum.number.injEq]
  have hyes (op : Comparison) : answer op = yes ↔ op.holds x y = true := by
    rw [hanswer, Except.ok.injEq, Value.boolean.injEq]
  refine ⟨hanswer, hequal, ?_, ?_⟩
  · rw [hyes, hequal, hyes]
    simpa only [Comparison.holds, decide_eq_true_iff] using exactlyOne_of_trichotomy x y
  · rw [hyes, hyes, hequal]
    simpa only [Comparison.holds, decide_eq_true_iff] using le_iff_lt_or_eq

/-- A third and a half. -/
theorem ordering_agrees_third :
    let third : Fraction := ⟨1, 3, by decide⟩
    let half : Fraction := ⟨1, 2, by decide⟩
    Number.Stands false third.value (.fraction third) ∧
      Number.Stands false half.value (.fraction half) ∧
      Number.Discernible false third.value false half.value ∧
      Operation.compare .initial .less (.fraction third) (.fraction half) =
        .ok (.boolean (Comparison.less.holds third.value half.value)) := by
  intro third half
  have hthird : Number.Stands false third.value (.fraction third) := .fraction (by decide)
  have hhalf : Number.Stands false half.value (.fraction half) := .fraction (by decide)
  have hdiscernible : Number.Discernible false third.value false half.value :=
    Fraction.discernible_of_terms (by decide) (by decide)
  exact ⟨hthird, hhalf, hdiscernible,
    (ordering_agrees .initial hthird hhalf hdiscernible).1 .less⟩

/-- Of `2 ^ 53` and the next integer neither is less than the other, nor are they equal, and
    yet the one is at most the other. -/
theorem large_integers_not_ordered :
    let a : Int64 := 9007199254740992
    let b : Int64 := 9007199254740993
    let answer (op : Comparison) := Operation.compare .initial op (.integer a) (.integer b)
    a.toInt < b.toInt ∧ answer .less = .ok (.boolean false) ∧
      Operation.equality .initial .equal (.integer a) (.integer b) = .ok (.boolean false) ∧
      answer .greater = .ok (.boolean false) ∧ answer .atMost = .ok (.boolean true) := by
  intro a b answer
  have hanswer (op : Comparison) :
      answer op = .ok (.boolean (Number.compare op (.integer a) (.integer b))) :=
    rfl
  have hless : Number.compare .less (.integer a) (.integer b) = false := by decide +kernel
  have hgreater : Number.compare .greater (.integer a) (.integer b) = false := by decide +kernel
  have hatMost : Number.compare .atMost (.integer a) (.integer b) = true := by decide +kernel
  rw [hanswer, hanswer, hanswer, hless, hgreater, hatMost]
  exact ⟨by decide, rfl, rfl, rfl, rfl⟩

end Linewise
