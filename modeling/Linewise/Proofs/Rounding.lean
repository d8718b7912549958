import Mathlib

/-!
# Rounding

Binary floating-point numbers of 64 bits have 53 bits for a number, and the result of an
operation is rounded to those. What is known of the result `z` of rounding `x` is that

* it is off by at most one part in `2 ^ 53` (`Rounded.near`), and
* it is `x` if 53 bits are enough for that (`Rounded.exact`).

Both come from the last of the 53 places: `z` is a multiple of its unit, and the one
nearest to `x` (`Rounded.of_unit`).

The number is first cut off after these places. Two bits keep what a correct rounding
needs to know of the rest: the first bit of it, and whether there is anything behind that
(`Represents`). They stay correct when the number is shifted further (`Represents.shift`), so
that the mantissa rounded by them is the whole number nearest to the shifted one
(`Represents.rounded`). If it is then too long by one bit, the last one is a zero, and is
dropped (`round_spec`).
-/

namespace Linewise.Real

open Float.Model Float.Model.UnpackedFloat

/-! ## Rounded numbers -/

/-- What is known of the result `z` of rounding `x`. -/
structure Rounded (x z : ℚ) : Prop where
  near : |z - x| ≤ |x| / 2 ^ 53
  exact : ∀ n t : ℤ, |n| ≤ 2 ^ 53 → x = n * 2 ^ t → z = x

namespace Rounded

variable {x z : ℚ}

theorem zero : Rounded 0 0 where
  near := by simp
  exact _ _ _ _ := rfl

theorem neg (h : Rounded x z) : Rounded (-x) (-z) where
  near := by
    rw [abs_neg, neg_sub_neg, abs_sub_comm]
    exact h.near
  exact n t hn hx := by
    refine congrArg _ (h.exact (-n) t (by rwa [abs_neg]) ?_)
    rw [Int.cast_neg, neg_mul, ← hx, neg_neg]

/-- The multiple of the unit in the last of 53 places that is nearest to a number. -/
theorem of_unit {n : ℕ} {t : ℤ} (hlower : 2 ^ 52 * 2 ^ t ≤ x) (hupper : x < 2 ^ 53 * 2 ^ t)
    (hnearest : |n * 2 ^ t - x| ≤ 2 ^ t / 2) : Rounded x (n * 2 ^ t) where
  near := by
    have hunit : (0 : ℚ) < 2 ^ t := by positivity
    rw [abs_of_nonneg (a := x) (by linarith), le_div_iff₀ (by positivity)]
    linarith
  exact k i hk hx := by
    have hunit : (0 : ℚ) < 2 ^ t := by positivity
    -- The number itself is a multiple of the unit, and no other is as near.
    obtain ⟨j, hj⟩ : ∃ j : ℤ, x = j * 2 ^ t := by
      rcases le_or_gt t i with hti | hti
      · obtain ⟨d, rfl⟩ := Int.le.dest hti
        refine ⟨k * 2 ^ d, ?_⟩
        rw [hx, zpow_add₀ two_ne_zero, zpow_natCast]
        push_cast
        ring
      · -- The unit is too large for less than `2 ^ 52` of it, so there is only one place left.
        refine ⟨2 ^ 52, le_antisymm ?_ (by exact_mod_cast hlower)⟩
        have hpow : (2 : ℚ) ^ i ≤ 2 ^ (t - 1) := zpow_le_zpow_right₀ one_le_two (by omega)
        have hk' : (k : ℚ) ≤ 2 ^ 53 := by exact_mod_cast (le_abs_self k).trans hk
        rw [zpow_sub_one₀ two_ne_zero] at hpow
        calc x = k * 2 ^ i := hx
          _ ≤ 2 ^ 53 * 2 ^ i := by gcongr
          _ ≤ 2 ^ 53 * (2 ^ t * 2⁻¹) := by gcongr
          _ = (2 ^ 52 : ℤ) * 2 ^ t := by push_cast; ring
    rw [hj, ← sub_mul, abs_mul, abs_of_pos hunit] at hnearest
    have hlt : |((n - j : ℤ) : ℚ)| < 1 := by
      push_cast
      nlinarith
    have hzero : (n : ℤ) - j = 0 := Int.abs_lt_one_iff.1 (by exact_mod_cast hlt)
    rw [hj, ← sub_eq_zero.1 hzero]
    push_cast
    rfl

end Rounded

/-! ## A mantissa and two more bits -/

/-- The mantissa is the whole part of `v`. The first bit says whether the rest is at least a
    half, and the second one whether there is more than that. -/
def Represents (em : ExtendedMantissa) (v : ℚ) : Prop :=
  match em with
  | ⟨m, false, false⟩ => v = m
  | ⟨m, false, true⟩ => m < v ∧ v < m + 1 / 2
  | ⟨m, true, false⟩ => v = m + 1 / 2
  | ⟨m, true, true⟩ => m + 1 / 2 < v ∧ v < m + 1

namespace Represents

variable {em : ExtendedMantissa} {v : ℚ}

theorem floor (h : Represents em v) : em.mantissa ≤ v ∧ v < em.mantissa + 1 := by
  obtain ⟨m, roundBit, stickyBit⟩ := em
  cases roundBit <;> cases stickyBit <;> simp only [Represents] at h ⊢ <;>
    constructor <;> linarith

/-- The mantissa is rounded to the nearest. -/
theorem rounded (h : Represents em v) : |em.roundedMantissa - v| ≤ 1 / 2 := by
  obtain ⟨m, roundBit, stickyBit⟩ := em
  have hparity : m % 2 = 0 ∨ m % 2 = 1 := Nat.mod_two_eq_zero_or_one m
  rw [abs_le]
  cases roundBit <;> cases stickyBit <;>
    simp only [Represents, ExtendedMantissa.roundedMantissa, ExtendedMantissa.accuracy,
      Accuracy.roundToNearestEven] at h ⊢
  case true.false =>
    rcases hparity with hm | hm <;> rw [hm] <;> push_cast <;> constructor <;> linarith
  all_goals push_cast; constructor <;> linarith

theorem shiftOne (h : Represents em v) : Represents em.shiftRightOne (v / 2) := by
  obtain ⟨m, roundBit, stickyBit⟩ := em
  have hm : (m : ℚ) = 2 * (m / 2 : ℕ) + (m % 2 : ℕ) := by
    exact_mod_cast (Nat.div_add_mod m 2).symm
  rcases Nat.mod_two_eq_zero_or_one m with hparity | hparity <;> rw [hparity] at hm <;>
    cases roundBit <;> cases stickyBit <;>
    simp only [Represents, ExtendedMantissa.shiftRightOne, hparity, Bool.or_true, Bool.or_false,
      bne_self_eq_false, Nat.reduceBNe, hm] at h ⊢ <;>
    push_cast at h ⊢ <;> first | linarith | constructor <;> linarith

theorem shift (h : Represents em v) (k : ℕ) : Represents (em >>> k) (v / 2 ^ k) := by
  induction k with
  | zero =>
    rw [pow_zero, div_one]
    exact h
  | succ k ih =>
    rw [pow_succ, ← div_div]
    exact ih.shiftOne

theorem exact (m : ℕ) : Represents (.ofMantissaAndAccuracy m .exact) m :=
  rfl

/-- The quotient of whole numbers, with what is known of the remainder. -/
theorem quotient (m : ℕ) {n : ℕ} (hn : 0 < n) :
    Represents (.ofMantissaAndAccuracy (m / n) (accuracyOfFraction (m % n) n)) (m / n) := by
  have hn' : (0 : ℚ) < n := Nat.cast_pos.2 hn
  have hm : (m : ℚ) / n = (m / n : ℕ) + (m % n : ℕ) / n := by
    rw [div_eq_iff hn'.ne', add_mul, div_mul_cancel₀ _ hn'.ne']
    exact_mod_cast (Nat.div_add_mod' m n).symm
  have hlt : ((m % n : ℕ) : ℚ) < n := Nat.cast_lt.2 (Nat.mod_lt m hn)
  rw [hm]
  generalize m % n = r at hlt
  rcases Nat.eq_zero_or_pos r with rfl | hr
  · rw [Nat.cast_zero, zero_div, add_zero]
    exact exact _
  have hpos : (0 : ℚ) < r / n := div_pos (Nat.cast_pos.2 hr) hn'
  rw [accuracyOfFraction, if_neg hr.ne']
  rcases Nat.lt_trichotomy (2 * r) n with h | h | h
  · have hhalf : (r : ℚ) / n < 1 / 2 := by
      rw [div_lt_div_iff₀ hn' two_pos]
      exact_mod_cast (by omega : r * 2 < 1 * n)
    rw [Nat.compare_eq_lt.2 h]
    exact ⟨by linarith, by linarith⟩
  · have hhalf : (r : ℚ) / n = 1 / 2 := by
      rw [div_eq_div_iff hn'.ne' two_ne_zero]
      exact_mod_cast (by omega : r * 2 = 1 * n)
    rw [Nat.compare_eq_eq.2 h, hhalf]
    exact rfl
  · have hhalf : 1 / 2 < (r : ℚ) / n := by
      rw [div_lt_div_iff₀ two_pos hn']
      exact_mod_cast (by omega : 1 * n < r * 2)
    have hone : (r : ℚ) / n < 1 := (div_lt_one hn').2 hlt
    rw [Nat.compare_eq_gt.2 h]
    exact ⟨by linarith, by linarith⟩

end Represents

/-! ## Numbers of 53 bits -/

/-- A number with a sign. -/
def signed (s : Sign) (x : ℚ) : ℚ :=
  match s with
  | .negative => -x
  | .positive => x

theorem signed_mul (s t : Sign) (x y : ℚ) : signed (s * t) (x * y) = signed s x * signed t y := by
  cases s <;> cases t
  · exact (neg_mul_neg x y).symm
  · exact (neg_mul x y).symm
  · exact (mul_neg x y).symm
  · rfl

theorem signed_div (s t : Sign) (x y : ℚ) : signed (s / t) (x / y) = signed s x / signed t y := by
  cases s <;> cases t
  · exact (neg_div_neg_eq x y).symm
  · exact (neg_div y x).symm
  · exact (div_neg x).symm
  · rfl

theorem abs_signed (s : Sign) (x : ℚ) : |signed s x| = |x| := by
  cases s with
  | negative => exact abs_neg x
  | positive => rfl

theorem Rounded.signed {x z : ℚ} (s : Sign) (h : Rounded x z) :
    Rounded (signed s x) (signed s z) := by
  cases s with
  | negative => exact h.neg
  | positive => exact h

/-- The real is a zero or has all of its 53 bits, and a place among those of 64 bits; and
    what number it is. -/
inductive Normal : UnpackedFloat → ℚ → Prop
  | zero (s : Sign) : Normal (.zero s) 0
  | finite (s : Sign) {m : ℕ} {e : ℤ} (hm : 0 < m) (hlower : 2 ^ 52 ≤ m) (hupper : m < 2 ^ 53)
    (hmin : -1074 ≤ e) (hmax : e ≤ 971) : Normal (.finite s m e hm) (signed s (m * 2 ^ e))

variable {s : Sign} {m : ℕ} {e : ℤ} {accuracy : Accuracy} {v : ℚ}

theorem mantissa_ofMantissaAndAccuracy :
    (ExtendedMantissa.ofMantissaAndAccuracy m accuracy).mantissa = m := by
  match accuracy with
  | .exact | .inexact .lt | .inexact .eq | .inexact .gt => rfl

/-- All but 53 bits are shifted out. -/
theorem shiftToTargetExponent_eq (hm : 52 ≤ m.log2) (he : -1022 ≤ m.log2 + e) :
    shiftToTargetExponent .binary64 m e accuracy =
      (ExtendedMantissa.ofMantissaAndAccuracy m accuracy >>> (m.log2 - 52),
        e + (m.log2 - 52 : ℕ)) := by
  have htarget : Format.binary64.targetExponent (totalExponent m e) = m.log2 + e - 52 := by
    simp only [Format.targetExponent, totalExponent, Format.mantissaBits, Format.minExponent]
    omega
  have hshift : (m.log2 + e - 52 - e).toNat = m.log2 - 52 := by omega
  rw [shiftToTargetExponent, shiftToExponent, htarget, hshift]

theorem log2_eq {k : ℕ} (hlower : 2 ^ k ≤ m) (hupper : m < 2 ^ (k + 1)) : m.log2 = k := by
  have hm : m ≠ 0 := by have := Nat.two_pow_pos k; omega
  exact (Nat.log2_eq_iff hm).2 ⟨hlower, hupper⟩

/-- A whole number of 53 places and its last unit, or one more than that, as a real. -/
theorem normal_of_rounded {n : ℕ} {t : ℤ} (hlower : 2 ^ 52 ≤ n) (hupper : n ≤ 2 ^ 53)
    (hmin : -1074 ≤ t) (hmax : t ≤ 970) :
    ∃ m' e', ∃ hm' : 0 < m', shiftToTargetExponent .binary64 n t .exact = (⟨m', false, false⟩, e') ∧
      Normal (.finite s m' e' hm') (signed s (n * 2 ^ t)) := by
  rcases hupper.lt_or_eq with hupper | rfl
  · have hlog := log2_eq hlower hupper
    refine ⟨n, t, by omega, ?_, .finite s _ hlower hupper hmin (by omega)⟩
    rw [shiftToTargetExponent_eq (by omega) (by omega), hlog]
    exact congrArg _ (add_zero t)
  · have hvalue : ((2 ^ 53 : ℕ) * 2 ^ t : ℚ) = (2 ^ 52 : ℕ) * 2 ^ (t + 1) := by
      rw [zpow_add_one₀ two_ne_zero]
      push_cast
      ring
    rw [hvalue]
    refine ⟨2 ^ 52, t + 1, by decide, ?_,
      .finite s _ le_rfl (by decide) (by omega) (by omega)⟩
    rw [shiftToTargetExponent_eq (by decide) (by rw [Nat.log2_two_pow]; omega), Nat.log2_two_pow]
    rfl

/-- The first bit of a number is that of its whole part. -/
theorem Represents.log2 (hv : Represents (.ofMantissaAndAccuracy m accuracy) v) (hm : 0 < m) :
    2 ^ m.log2 ≤ v ∧ v < 2 ^ (m.log2 + 1) := by
  obtain ⟨hfloor, hceil⟩ := hv.floor
  rw [mantissa_ofMantissaAndAccuracy] at hfloor hceil
  have hlower : ((2 ^ m.log2 : ℕ) : ℚ) ≤ m := Nat.cast_le.2 (Nat.log2_self_le hm.ne')
  have hupper : ((m + 1 : ℕ) : ℚ) ≤ (2 ^ (m.log2 + 1) : ℕ) := Nat.cast_le.2 Nat.lt_log2_self
  push_cast at hlower hupper
  exact ⟨hlower.trans hfloor, hceil.trans_le hupper⟩

/-- The place of the first bit of a number that is neither too small nor too large. -/
theorem place_of_bounds {k : ℕ} (hlower : 2 ^ k ≤ v) (hupper : v < 2 ^ (k + 1))
    (hmin : 2 ^ (-1000 : ℤ) ≤ v * 2 ^ e) (hmax : v * 2 ^ e ≤ 2 ^ (1000 : ℤ)) :
    -1000 ≤ k + e ∧ k + e ≤ 1000 := by
  have hpos : (0 : ℚ) < 2 ^ e := by positivity
  have hfirst : (2 : ℚ) ^ (k + e : ℤ) ≤ 2 ^ (1000 : ℤ) := by
    rw [zpow_add₀ two_ne_zero, zpow_natCast]
    exact (mul_le_mul_of_nonneg_right hlower hpos.le).trans hmax
  have hlast : (2 : ℚ) ^ (-1000 : ℤ) < 2 ^ (k + 1 + e : ℤ) := by
    rw [zpow_add₀ two_ne_zero, ← Nat.cast_add_one, zpow_natCast]
    exact hmin.trans_lt (mul_lt_mul_of_pos_right hupper hpos)
  rw [zpow_le_zpow_iff_right₀ one_lt_two] at hfirst
  rw [zpow_lt_zpow_iff_right₀ one_lt_two] at hlast
  omega

/-- What is rounded to 53 bits has them, and is what it should be. -/
theorem round_spec (hv : Represents (.ofMantissaAndAccuracy m accuracy) v) (hm : 2 ^ 52 ≤ m)
    (hmin : 2 ^ (-1000 : ℤ) ≤ v * 2 ^ e) (hmax : v * 2 ^ e ≤ 2 ^ (1000 : ℤ)) :
    ∃ z, Normal (roundWithAccuracy .binary64 s m e accuracy) z ∧
      Rounded (signed s (v * 2 ^ e)) z := by
  have hlog : 52 ≤ m.log2 := (Nat.le_log2 (by omega)).2 hm
  obtain ⟨hlower, hupper⟩ := hv.log2 (by omega)
  obtain ⟨hfirst, hlast⟩ := place_of_bounds hlower hupper hmin hmax
  -- What is left after the shift, with its unit in the last of 53 places.
  obtain ⟨k, hk⟩ := Nat.exists_eq_add_of_le hlog
  have hshift : shiftToTargetExponent .binary64 m e accuracy = _ :=
    shiftToTargetExponent_eq hlog (by omega)
  rw [hk, Nat.add_sub_cancel_left] at hshift
  rw [hk, pow_add] at hlower
  rw [hk, Nat.add_right_comm, pow_add] at hupper
  have hw := hv.shift k
  have hwlower : 2 ^ 52 ≤ v / 2 ^ k := (le_div_iff₀ (by positivity)).2 hlower
  have hwupper : v / 2 ^ k < 2 ^ 53 := (div_lt_iff₀ (by positivity)).2 hupper
  have hunit : v / 2 ^ k * 2 ^ (e + k) = v * 2 ^ e := by
    rw [zpow_add₀ two_ne_zero, zpow_natCast]
    field_simp
  -- It is rounded to a whole number of units.
  set n := (ExtendedMantissa.ofMantissaAndAccuracy m accuracy >>> k).roundedMantissa
  have hnearest : |n - v / 2 ^ k| ≤ 1 / 2 := hw.rounded
  obtain ⟨hbelow, habove⟩ := abs_le.1 hnearest
  have hnlower : 2 ^ 52 ≤ n := by
    have : (2 ^ 52 : ℚ) < n + 1 := by linarith
    exact Nat.lt_succ_iff.1 (by exact_mod_cast this)
  have hnupper : n ≤ 2 ^ 53 := by
    have : (n : ℚ) < 2 ^ 53 + 1 := by linarith
    exact Nat.lt_succ_iff.1 (by exact_mod_cast this)
  obtain ⟨m', e', hm', hsecond, hnormal⟩ :=
    normal_of_rounded (s := s) hnlower hnupper (t := e + k) (by omega) (by omega)
  refine ⟨signed s (n * 2 ^ (e + k : ℤ)), ?_, .signed s ?_⟩
  · rw [roundWithAccuracy, hshift]
    dsimp only
    rw [hsecond, dif_neg hm'.ne']
    exact hnormal
  · have hpos : (0 : ℚ) < 2 ^ (e + k : ℤ) := by positivity
    rw [← hunit]
    refine .of_unit (by gcongr) (by gcongr) ?_
    have hscaled := mul_le_mul_of_nonneg_right hnearest hpos.le
    rw [← sub_mul, abs_mul, abs_of_pos hpos]
    linarith

end Linewise.Real
