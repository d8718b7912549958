import Linewise.Proofs.Rounding

/-!
# Reals as rational numbers

A real that is a zero or has all of its 53 bits is a rational number (`Stands`). What is
made of such reals is the rational number that it should be, rounded:

* packing one in 64 bits and unpacking it gives it back (`unpack_pack`), so that an
  operation is on what was rounded before;
* the order of reals is that of rational numbers (`Stands.lt_iff`, `Stands.le_iff`), as
  the place of the last bit decides first and the mantissa then (`compares_finite`);
* products and quotients are rounded (`Stands.mul`, `Stands.div`), within a range that the
  numbers of 64 bits and their quotients do not leave (`InRange`);
* the real of a whole number is that number rounded (`stands_ofInt`), and exact if it has no
  more than 53 bits.
-/

namespace Linewise.Real

open Float.Model Float.Model.UnpackedFloat

variable {u v : UnpackedFloat} {q r : ℚ} {x y : Float}

/-! ## Packing -/

theorem unpackSign_packComponents {spec : Format} (s : Sign) (exponent : BitVec spec.exponentBits)
    (mantissa : BitVec spec.mantissaBitsWithoutImplicit) :
    unpackSign (packComponents spec s exponent mantissa) = s.toBitVec := by
  ext i hi
  obtain rfl : i = 0 := by omega
  simp [unpackSign, packComponents, BitVec.getLsbD_append, BitVec.getElem_append]

/-- The bit that is not written is put back in front. -/
theorem toNat_append_mantissa {m : ℕ} (hlower : 2 ^ 52 ≤ m) (hupper : m < 2 ^ 53) :
    (1#1 ++ BitVec.ofNat 52 m).toNat = m := by
  rw [BitVec.toNat_append, ← Nat.shiftLeft_add_eq_or_of_lt (BitVec.isLt _), BitVec.toNat_ofNat,
    BitVec.toNat_ofNat, Nat.shiftLeft_eq]
  omega

theorem unpack_pack (h : Normal u q) : (Float.Model.pack u).unpack = u := by
  cases h with
  | zero s => cases s <;> rfl
  | @finite s m e hm hlower hupper hmin hmax =>
    obtain ⟨n, hn⟩ : ∃ n : ℕ, e + 1075 = n := Int.eq_ofNat_of_zero_le (by omega)
    have hpack : UnpackedFloat.pack .binary64 (.finite s m e hm) =
        packComponents .binary64 s (BitVec.ofNat 11 n) (BitVec.ofNat 52 m) := by
      have hbiased : (e + Format.binary64.exponentBias +
          Format.binary64.mantissaBitsWithoutImplicit).toNat = n := by
        change (e + (1023 : ℕ) + (52 : ℕ)).toNat = n
        omega
      rw [UnpackedFloat.pack]
      simp only [hbiased, log2_eq hlower hupper]
      rw [if_neg (by omega)]
      exact if_pos rfl
    have hexponent : (BitVec.ofNat 11 n).toNat = n := by
      rw [BitVec.toNat_ofNat, Nat.mod_eq_of_lt (by omega)]
    have hinfinite : BitVec.ofNat 11 n ≠ -1#11 := by
      rw [Ne, ← BitVec.toNat_inj, hexponent]
      exact ne_of_lt (show n < 2047 by omega)
    have hsubnormal : BitVec.ofNat 11 n ≠ 0#11 := by
      rw [Ne, ← BitVec.toNat_inj, hexponent]
      exact ne_of_gt (show 0 < n by omega)
    have hsign : Sign.ofBitVec s.toBitVec = s := by cases s <;> rfl
    change UnpackedFloat.unpack .binary64 (UnpackedFloat.pack .binary64 (.finite s m e hm)) = _
    rw [hpack, UnpackedFloat.unpack]
    simp only [unpackMantissa_packComponents, unpackExponent_packComponents,
      unpackSign_packComponents, if_neg hinfinite, if_neg hsubnormal, hexponent, hsign,
      toNat_append_mantissa hlower hupper]
    congr
    change (n : ℤ) - ((1023 : ℕ) + (52 : ℕ)) = e
    omega

/-- The real is a zero or has all of its 53 bits, and is the number `q`. -/
def Stands (q : ℚ) (x : Float) : Prop :=
  Normal x.toModel.unpack q

theorem stands_pack (h : Normal u q) : Stands q (.ofModel (.pack u)) := by
  rw [Stands, unpack_pack h]
  exact h

theorem Normal.neg (h : Normal u q) : Normal u.neg (-q) := by
  cases h with
  | zero s =>
    rw [neg_zero]
    exact .zero _
  | finite s hm hlower hupper hmin hmax =>
    cases s with
    | negative =>
      rw [signed, neg_neg]
      exact .finite .positive hm hlower hupper hmin hmax
    | positive => exact .finite .negative hm hlower hupper hmin hmax

theorem Stands.neg (h : Stands q x) : Stands (-q) (-x) :=
  stands_pack (Normal.neg h)

/-! ## Comparison -/

section

variable {m₁ m₂ : ℕ} {e₁ e₂ : ℤ}

/-- Numbers of 53 bits go by their last places first. -/
theorem lt_of_place_lt (hupper₁ : m₁ < 2 ^ 53) (hlower₂ : 2 ^ 52 ≤ m₂) (h : e₁ < e₂) :
    (m₁ * 2 ^ e₁ : ℚ) < m₂ * 2 ^ e₂ := by
  have hpow : (2 : ℚ) ^ (e₁ + 1) ≤ 2 ^ e₂ := zpow_le_zpow_right₀ one_le_two (by omega)
  rw [zpow_add_one₀ two_ne_zero] at hpow
  have hm₁ : (m₁ : ℚ) < 2 ^ 53 := by exact_mod_cast hupper₁
  have hm₂ : (2 ^ 52 : ℚ) ≤ m₂ := by exact_mod_cast hlower₂
  calc (m₁ * 2 ^ e₁ : ℚ) < 2 ^ 53 * 2 ^ e₁ := by gcongr
    _ = 2 ^ 52 * (2 ^ e₁ * 2) := by ring
    _ ≤ m₂ * 2 ^ e₂ := by gcongr

theorem compares_finite (hlower₁ : 2 ^ 52 ≤ m₁) (hupper₁ : m₁ < 2 ^ 53) (hlower₂ : 2 ^ 52 ≤ m₂)
    (hupper₂ : m₂ < 2 ^ 53) :
    ((compare e₁ e₂).then (compare m₁ m₂)).Compares (m₁ * 2 ^ e₁ : ℚ) (m₂ * 2 ^ e₂) := by
  rcases lt_trichotomy e₁ e₂ with h | rfl | h
  · rw [compare_lt_iff_lt.2 h]
    exact lt_of_place_lt hupper₁ hlower₂ h
  · have hpos : (0 : ℚ) < 2 ^ e₁ := by positivity
    rw [compare_eq_iff_eq.2 rfl]
    rcases lt_trichotomy m₁ m₂ with h | rfl | h
    · rw [compare_lt_iff_lt.2 h]
      exact mul_lt_mul_of_pos_right (Nat.cast_lt.2 h) hpos
    · rw [compare_eq_iff_eq.2 rfl]
      exact rfl
    · rw [compare_gt_iff_gt.2 h]
      exact mul_lt_mul_of_pos_right (Nat.cast_lt.2 h) hpos
  · rw [compare_gt_iff_gt.2 h]
    exact lt_of_place_lt hupper₂ hlower₁ h

end

theorem compares_neg {o : Ordering} (h : o.Compares q r) : o.swap.Compares (-q) (-r) := by
  cases o with
  | lt => exact neg_lt_neg h
  | eq => exact congrArg _ h
  | gt => exact neg_lt_neg h

theorem compares_normal (hu : Normal u q) (hv : Normal v r) :
    ∃ o : Ordering, u.compare v = some o ∧ o.Compares q r := by
  have hpos {m : ℕ} (hm : 0 < m) (e : ℤ) : (0 : ℚ) < m * 2 ^ e :=
    mul_pos (Nat.cast_pos.2 hm) (by positivity)
  cases hu with
  | zero s =>
    cases hv with
    | zero => exact ⟨.eq, rfl, rfl⟩
    | finite s hm =>
      cases s with
      | negative => exact ⟨.gt, rfl, neg_lt_zero.2 (hpos hm _)⟩
      | positive => exact ⟨.lt, rfl, hpos hm _⟩
  | finite s hm hlower hupper =>
    cases hv with
    | zero =>
      cases s with
      | negative => exact ⟨.lt, rfl, neg_lt_zero.2 (hpos hm _)⟩
      | positive => exact ⟨.gt, rfl, hpos hm _⟩
    | finite t hm' hlower' hupper' =>
      have h := hpos hm
      have h' := hpos hm'
      cases s with
      | negative =>
        cases t with
        | negative =>
          exact ⟨_, rfl, compares_neg (compares_finite hlower hupper hlower' hupper')⟩
        | positive => exact ⟨.lt, rfl, (neg_lt_zero.2 (h _)).trans (h' _)⟩
      | positive =>
        cases t with
        | negative => exact ⟨.gt, rfl, (neg_lt_zero.2 (h' _)).trans (h _)⟩
        | positive => exact ⟨_, rfl, compares_finite hlower hupper hlower' hupper'⟩

theorem Stands.lt_iff (hx : Stands q x) (hy : Stands r y) : x < y ↔ q < r := by
  obtain ⟨o, ho, hcompares⟩ := compares_normal hx hy
  rw [← hcompares.eq_lt]
  change decide (x.toModel < y.toModel) = true ↔ _
  rw [decide_eq_true_iff]
  change (x.toModel.unpack.compare y.toModel.unpack == some .lt) = true ↔ _
  rw [ho, beq_iff_eq, Option.some.injEq]

theorem Stands.le_iff (hx : Stands q x) (hy : Stands r y) : x ≤ y ↔ q ≤ r := by
  obtain ⟨o, ho, hcompares⟩ := compares_normal hx hy
  rw [← hcompares.ne_gt]
  change decide (x.toModel ≤ y.toModel) = true ↔ _
  rw [decide_eq_true_iff]
  change (x.toModel.unpack.compare y.toModel.unpack).any (·.isLE) = true ↔ _
  rw [ho]
  cases o <;> simp

/-- A real is one number only. -/
theorem Stands.unique (h : Stands q x) (h' : Stands r x) : q = r :=
  le_antisymm ((h.le_iff h').1 ((h.le_iff h).2 le_rfl)) ((h'.le_iff h).1 ((h.le_iff h).2 le_rfl))

/-! ## Products and quotients -/

/-- A number that is neither too small nor too large for its place to be one of those of 64
    bits. -/
def InRange (q : ℚ) : Prop :=
  2 ^ (-1000 : ℤ) ≤ |q| ∧ |q| ≤ 2 ^ (1000 : ℤ)

/-- A number with a sign is rounded as one without it. -/
theorem round_signed {s : Sign} {m : ℕ} {e : ℤ} {accuracy : Accuracy} {v w : ℚ}
    (hv : Represents (.ofMantissaAndAccuracy m accuracy) v) (hm : 2 ^ 52 ≤ m)
    (hvalue : v * 2 ^ e = w) (hpos : 0 < w) (hrange : InRange (signed s w)) :
    ∃ z, Normal (roundWithAccuracy .binary64 s m e accuracy) z ∧ Rounded (signed s w) z := by
  rw [InRange, abs_signed, abs_of_pos hpos, ← hvalue] at hrange
  rw [← hvalue]
  exact round_spec hv hm hrange.1 hrange.2

theorem Normal.mul (hu : Normal u q) (hv : Normal v r)
    (hrange : q * r ≠ 0 → InRange (q * r)) :
    ∃ z, Normal (u.mul .binary64 v) z ∧ Rounded (q * r) z := by
  cases hu with
  | zero s =>
    rw [zero_mul]
    cases hv with
    | zero t => exact ⟨0, .zero _, .zero⟩
    | finite t => exact ⟨0, .zero _, .zero⟩
  | @finite s m₁ e₁ hm₁ hlower₁ =>
    cases hv with
    | zero t =>
      rw [mul_zero]
      exact ⟨0, .zero _, .zero⟩
    | @finite t m₂ e₂ hm₂ hlower₂ =>
      have hpos₁ : (0 : ℚ) < m₁ * 2 ^ e₁ := by positivity
      have hpos₂ : (0 : ℚ) < m₂ * 2 ^ e₂ := by positivity
      have hvalue : ((m₁ * m₂ : ℕ) * 2 ^ (e₁ + e₂) : ℚ) = m₁ * 2 ^ e₁ * (m₂ * 2 ^ e₂) := by
        rw [zpow_add₀ two_ne_zero]
        push_cast
        ring
      rw [← signed_mul] at hrange ⊢
      refine round_signed (.exact _) ?_ hvalue (mul_pos hpos₁ hpos₂) (hrange ?_)
      · exact hlower₁.trans (Nat.le_mul_of_pos_right m₁ hm₂)
      · rw [← abs_pos, abs_signed, abs_pos]
        exact (mul_pos hpos₁ hpos₂).ne'

section

variable {m₁ m₂ : ℕ} {e₁ e₂ : ℤ}

/-- If a quotient of numbers of the same length is not too small, neither is the difference
    of their places. -/
theorem place_of_quotient (hm₂ : 0 < m₂) (hle : m₁ ≤ 2 * m₂)
    (hmin : (2 : ℚ) ^ (-1000 : ℤ) ≤ m₁ * 2 ^ e₁ / (m₂ * 2 ^ e₂)) : -1001 ≤ e₁ - e₂ := by
  have hquotient : (m₁ / m₂ : ℚ) ≤ 2 := by
    rw [div_le_iff₀ (Nat.cast_pos.2 hm₂)]
    exact_mod_cast hle
  have hpow : (2 : ℚ) ^ (-1000 : ℤ) ≤ 2 ^ (e₁ - e₂ + 1) := by
    calc (2 : ℚ) ^ (-1000 : ℤ) ≤ m₁ * 2 ^ e₁ / (m₂ * 2 ^ e₂) := hmin
      _ = m₁ / m₂ * 2 ^ (e₁ - e₂) := by rw [zpow_sub₀ two_ne_zero, mul_div_mul_comm]
      _ ≤ 2 * 2 ^ (e₁ - e₂) := by gcongr
      _ = 2 ^ (e₁ - e₂ + 1) := by rw [zpow_add_one₀ two_ne_zero, mul_comm]
  rw [zpow_le_zpow_iff_right₀ one_lt_two] at hpow
  omega

/-- Numbers of 53 bits are divided with 53 bits more. -/
theorem divCore_eq (hlower₁ : 2 ^ 52 ≤ m₁) (hupper₁ : m₁ < 2 ^ 53) (hlower₂ : 2 ^ 52 ≤ m₂)
    (hupper₂ : m₂ < 2 ^ 53) (he : -1001 ≤ e₁ - e₂) :
    divCore .binary64 m₁ e₁ m₂ e₂ =
      (m₁ * 2 ^ 53 / m₂, e₁ - e₂ - 53, accuracyOfFraction (m₁ * 2 ^ 53 % m₂) m₂) := by
  have htarget : min (e₁ - e₂)
      (Format.binary64.targetExponent (totalExponent m₁ e₁ - totalExponent m₂ e₂)) =
        e₁ - e₂ - 53 := by
    simp only [Format.targetExponent, totalExponent, Format.mantissaBits, Format.minExponent,
      log2_eq hlower₁ hupper₁, log2_eq hlower₂ hupper₂]
    omega
  have hshift : (e₁ - e₂ - (e₁ - e₂ - 53)).toNat = 53 := by omega
  simp only [divCore, htarget, hshift, Nat.shiftLeft_eq]

end

theorem Normal.div (hu : Normal u q) (hv : Normal v r) (hr : r ≠ 0)
    (hrange : q / r ≠ 0 → InRange (q / r)) :
    ∃ z, Normal (u.div .binary64 v) z ∧ Rounded (q / r) z := by
  cases hv with
  | zero t => exact absurd rfl hr
  | @finite t m₂ e₂ hm₂ hlower₂ hupper₂ =>
    cases hu with
    | zero s =>
      rw [zero_div]
      exact ⟨0, .zero _, .zero⟩
    | @finite s m₁ e₁ hm₁ hlower₁ hupper₁ =>
      have hpos : (0 : ℚ) < m₁ * 2 ^ e₁ / (m₂ * 2 ^ e₂) := by positivity
      rw [← signed_div] at hrange ⊢
      have hrange := hrange (by rw [← abs_pos, abs_signed, abs_pos]; exact hpos.ne')
      have hmin : (2 : ℚ) ^ (-1000 : ℤ) ≤ m₁ * 2 ^ e₁ / (m₂ * 2 ^ e₂) := by
        rw [InRange, abs_signed, abs_of_pos hpos] at hrange
        exact hrange.1
      have hplaces : -1001 ≤ e₁ - e₂ := place_of_quotient hm₂ (by omega) hmin
      have hvalue : ((m₁ * 2 ^ 53 : ℕ) / m₂ * 2 ^ (e₁ - e₂ - 53) : ℚ) =
          m₁ * 2 ^ e₁ / (m₂ * 2 ^ e₂) := by
        rw [zpow_sub₀ two_ne_zero, zpow_sub₀ two_ne_zero]
        push_cast
        field_simp
      rw [UnpackedFloat.div, divCore_eq hlower₁ hupper₁ hlower₂ hupper₂ hplaces]
      refine round_signed (.quotient _ hm₂) ?_ hvalue hpos hrange
      rw [Nat.le_div_iff_mul_le hm₂]
      omega

theorem Stands.mul (hx : Stands q x) (hy : Stands r y) (hrange : q * r ≠ 0 → InRange (q * r)) :
    ∃ z, Stands z (x * y) ∧ Rounded (q * r) z := by
  obtain ⟨z, hz, hrounded⟩ := Normal.mul hx hy hrange
  exact ⟨z, stands_pack hz, hrounded⟩

theorem Stands.div (hx : Stands q x) (hy : Stands r y) (hr : r ≠ 0)
    (hrange : q / r ≠ 0 → InRange (q / r)) : ∃ z, Stands z (x / y) ∧ Rounded (q / r) z := by
  obtain ⟨z, hz, hrounded⟩ := Normal.div hx hy hr hrange
  exact ⟨z, stands_pack hz, hrounded⟩

/-! ## Whole numbers -/

theorem inRange_of_le (hlower : 1 / 2 ^ 100 ≤ |q|) (hupper : |q| ≤ 2 ^ 100) : InRange q := by
  refine ⟨le_trans ?_ hlower, hupper.trans ?_⟩
  · rw [one_div, ← zpow_natCast, ← zpow_neg]
    exact zpow_le_zpow_right₀ one_le_two (by decide)
  · rw [← zpow_natCast]
    exact zpow_le_zpow_right₀ one_le_two (by decide)

theorem inRange_natCast {n : ℕ} (hn : 0 < n) (hupper : n ≤ 2 ^ 63) : InRange n := by
  have hone : (1 : ℚ) ≤ n := by exact_mod_cast hn
  have hmax : (n : ℚ) ≤ 2 ^ 63 := by exact_mod_cast hupper
  refine inRange_of_le ?_ ?_ <;> rw [abs_of_pos (by linarith)] <;> norm_num <;> linarith

/-- A whole number of at most 53 bits is shifted up to 53 of them. -/
theorem normal_round {n : ℕ} (hn : 0 < n) (hupper : n < 2 ^ 53) :
    Normal (UnpackedFloat.round .binary64 .positive n 0) n := by
  have hlog : n.log2 < 53 := (Nat.log2_lt hn.ne').2 hupper
  obtain ⟨k, hk⟩ := Nat.exists_eq_add_of_le (Nat.lt_succ_iff.1 hlog)
  have htarget : Format.binary64.targetExponent (totalExponent n 0) = -k := by
    simp only [Format.targetExponent, totalExponent, Format.mantissaBits, Format.minExponent]
    omega
  have hshift : (0 - -(k : ℤ)).toNat = k := by omega
  have hvalue : ((n * 2 ^ k : ℕ) * 2 ^ (-(k : ℤ)) : ℚ) = n := by
    rw [zpow_neg, zpow_natCast]
    push_cast
    field_simp
  have hlower : 2 ^ 52 ≤ n * 2 ^ k := by
    rw [hk, pow_add]
    exact Nat.mul_le_mul_right _ (Nat.log2_self_le hn.ne')
  obtain ⟨z, hz, hrounded⟩ := round_signed (s := .positive) (.exact _) hlower hvalue
    (by positivity) (inRange_natCast hn (by omega))
  have hexact : z = n := by
    refine hrounded.exact n 0 ?_ (by rw [zpow_zero, mul_one]; rfl)
    rw [Nat.abs_cast]
    exact_mod_cast hupper.le
  rw [UnpackedFloat.round, htarget, decreaseExponent, hshift, ← hexact]
  simpa only [zero_sub, Nat.shiftLeft_eq] using hz

theorem stands_toFloat {n : ℕ} (hn : n < 2 ^ 53) : Stands n n.toUInt64.toFloat := by
  refine stands_pack (u := UnpackedFloat.ofUInt64 .binary64 n.toUInt64) ?_
  have htoNat : n.toUInt64.toNat = n := Nat.mod_eq_of_lt (by omega)
  rw [UnpackedFloat.ofUInt64, htoNat, UnpackedFloat.ofNat, UnpackedFloat.ofInt,
    UnpackedFloat.normalize]
  rcases Nat.eq_zero_or_pos n with rfl | hpos
  · exact .zero _
  · rw [compare_gt_iff_gt.2 (show (n : ℤ) > 0 by omega)]
    exact normal_round hpos hn

theorem stands_one : Stands 1 (.ofBits 0x3FF0000000000000) := by
  have hvalue : (1 : ℚ) = signed .positive ((2 ^ 52 : ℕ) * 2 ^ (-52 : ℤ)) := by
    norm_num [signed]
  rw [hvalue]
  exact stands_pack (.finite .positive _ le_rfl (by decide) (by decide) (by decide))

theorem stands_ofNat {n : ℕ} (hn : n ≤ 2 ^ 63) : ∃ z, Stands z (.ofNat n) ∧ Rounded n z := by
  by_cases hsmall : n < 2 ^ 53
  · have hofNat : Float.ofNat n = n.toUInt64.toFloat * .ofBits 0x3FF0000000000000 := by
      change Float.ofScientific n false 0 = _
      rw [Float.ofScientific, dif_pos ⟨hsmall, by decide⟩]
      rfl
    have hone := (stands_toFloat hsmall).mul stands_one
    rw [mul_one] at hone
    rw [hofNat]
    exact hone fun h => inRange_natCast (Nat.pos_of_ne_zero (by simpa using h)) hn
  · have hpos : 0 < n := by omega
    have hofNat : Float.ofNat n = .ofModel (.pack
        (roundWithAccuracy .binary64 .positive (n <<< 53 * 10 ^ 0) (-53 + 0) .exact)) := by
      change Float.ofScientific n false 0 = _
      rw [Float.ofScientific, dif_neg fun h => hsmall h.1]
      change Float.ofModel (.pack (UnpackedFloat.ofScientific .binary64 n 0)) = _
      have hbits : (0 : ℤ) ≤ 2 ^ Format.binary64.exponentBits := by positivity
      rw [UnpackedFloat.ofScientific, dif_neg hpos.ne', if_neg (by decide), if_neg (by omega),
        if_pos le_rfl]
      rfl
    have hvalue : ((n <<< 53 * 10 ^ 0 : ℕ) * 2 ^ (-53 + 0 : ℤ) : ℚ) = n := by
      rw [Nat.shiftLeft_eq, add_zero, pow_zero, mul_one, zpow_neg]
      push_cast
      field_simp
    obtain ⟨z, hz, hrounded⟩ := round_signed (s := .positive) (.exact _)
      (by rw [Nat.shiftLeft_eq]; omega) hvalue (by positivity) (inRange_natCast hpos hn)
    exact ⟨z, hofNat ▸ stands_pack hz, hrounded⟩

theorem stands_ofInt {n : ℤ} (hn : n.natAbs ≤ 2 ^ 63) :
    ∃ z, Stands z (.ofInt n) ∧ Rounded n z := by
  cases n with
  | ofNat n => exact stands_ofNat hn
  | negSucc n =>
    obtain ⟨z, hz, hrounded⟩ := stands_ofNat hn
    rw [Int.cast_negSucc]
    exact ⟨-z, hz.neg, hrounded.neg⟩

end Linewise.Real
