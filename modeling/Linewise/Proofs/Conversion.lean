import Linewise.Proofs.Binary
import Linewise.Proofs.Exact

/-!
# Integers from reals

A finite real is a rational number (`Real.value?`), which its bits denote (`Real.value?_eq`). The
whole number that is computed from mantissa and exponent is the nearest one, a half going away
from zero (`Real.Finite.nearest_value`), and it is the integer that is made of the real, if it
fits (`Integer.Converted`). So it is for the results of powers, which are computed in reals
(`Fraction.Powered`).

There is one exception. The bound is compared as a real, which cannot be the largest integer and
is one more than that. A whole number of this size has no room for places after the point
(`Real.Finite.value_eq_nearest`), so that only `2 ^ 63` itself passes for the largest integer
(`conversion_saturates`).
-/

namespace Linewise

/-! ## The nearest integer -/

/-- The integer nearest to a rational number, a half going away from zero. -/
def Nearest (q : ℚ) (n : ℤ) : Prop :=
  |q - n| ≤ 1 / 2 ∧ (|q - n| = 1 / 2 → |q| < |(n : ℚ)|)

namespace Nearest

variable {q : ℚ} {n k : ℤ}

theorem intCast (n : ℤ) : Nearest n n := by
  rw [Nearest, sub_self, abs_zero]
  exact ⟨by norm_num, fun h => by norm_num at h⟩

theorem neg (h : Nearest q n) : Nearest (-q) (-n) := by
  rw [Nearest, Int.cast_neg, neg_sub_neg, abs_sub_comm, abs_neg, abs_neg]
  exact h

/-- A number that is not negative is rounded up from the half on. -/
theorem of_nonneg (hq : 0 ≤ q) (hlower : n - 1 / 2 ≤ q) (hupper : q < n + 1 / 2) :
    Nearest q n := by
  refine ⟨abs_le.2 ⟨by linarith, by linarith⟩, fun htie => ?_⟩
  have hn : q < n := by
    rcases eq_or_eq_neg_of_abs_eq htie with h | h <;> linarith
  rwa [abs_of_nonneg hq, abs_of_nonneg (hq.trans hn.le)]

/-- Between two integers at the same distance, the one further from zero is nearest. -/
theorem unique (h : Nearest q n) (hk : Nearest q k) : n = k := by
  by_contra hne
  wlog hlt : n < k generalizing n k
  · exact this hk h (Ne.symm hne) (lt_of_le_of_ne (not_lt.1 hlt) (Ne.symm hne))
  -- Both are at a distance of a half, so that the one next to zero is not nearest.
  have hsucc : (n : ℚ) + 1 ≤ k := by exact_mod_cast hlt
  obtain ⟨-, hle⟩ := abs_le.1 h.1
  obtain ⟨hge, -⟩ := abs_le.1 hk.1
  have hq : q = n + 1 / 2 := by linarith
  have hk' : (k : ℚ) = n + 1 := by linarith
  have hn := h.2 (by rw [hq]; norm_num)
  have hk := hk.2 (by rw [hq, hk']; norm_num)
  rw [hq] at hn hk
  rcases le_or_gt 0 n with hsign | hsign
  · have hsign : (0 : ℚ) ≤ n := by exact_mod_cast hsign
    rw [abs_of_nonneg (by linarith), abs_of_nonneg hsign] at hn
    linarith
  · have hsign : (n : ℚ) + 1 ≤ 0 := by exact_mod_cast hsign
    rw [abs_of_nonpos (by linarith), hk', abs_of_nonpos hsign] at hk
    linarith

end Nearest

/-! ## Finite reals -/

namespace Real

open Float.Model Float.Model.UnpackedFloat

/-- The rational number that a real is, if it is finite. -/
def value? (x : Float) : Option ℚ :=
  match x.toModel.unpack with
  | .finite s m e _ => some (signed s (m * 2 ^ e))
  | .zero _ => some 0
  | .infinity _ | .notANumber => none

/-- The rational number of a mantissa and an exponent. -/
def Finite.value (f : Finite) : ℚ :=
  f.signed f.mantissa * 2 ^ f.exponent

section

variable (b : UInt64)

theorem toNat_unpackMantissa :
    (@unpackMantissa .binary64 b.toBitVec).toNat = b.toNat % 2 ^ 52 := by
  simp [unpackMantissa]

theorem toNat_unpackExponent :
    (@unpackExponent .binary64 b.toBitVec).toNat = b.toNat / 2 ^ 52 % 2 ^ 11 := by
  simp [unpackExponent, Nat.shiftRight_eq_div_pow]

theorem toNat_unpackSign :
    (@unpackSign .binary64 b.toBitVec).toNat = b.toNat / 2 ^ 63 := by
  have := b.toNat_lt
  simp [unpackSign, Nat.shiftRight_eq_div_pow]
  omega

end

/-- The sign is the first bit. -/
theorem value_eq_signed (b : UInt64) (m : ℕ) (e : ℤ) :
    Finite.value ⟨b.toNat / 2 ^ 63 == 1, m, e⟩ =
      signed (Sign.ofBitVec (@unpackSign .binary64 b.toBitVec)) (m * 2 ^ e) := by
  have hsign := toNat_unpackSign b
  have hlt := b.toNat_lt
  have hbit : b.toNat / 2 ^ 63 = 0 ∨ b.toNat / 2 ^ 63 = 1 := by omega
  rcases hbit with h | h <;> rw [h] at hsign ⊢
  · rw [BitVec.eq_of_toNat_eq (y := 0#1) hsign]
    exact congrArg (· * _) (Int.cast_natCast m)
  · rw [BitVec.eq_of_toNat_eq (y := 1#1) hsign]
    simp [Finite.value, Finite.signed, Sign.ofBitVec, signed]

theorem signed_zero (s : Sign) : signed s 0 = 0 := by
  cases s with
  | negative => exact neg_zero
  | positive => rfl

/-- The bits denote the number that the real is. -/
theorem value?_eq (x : Float) : value? x = (finite? x).map Finite.value := by
  have hmantissa := toNat_unpackMantissa x.toBits
  have hexponent := toNat_unpackExponent x.toBits
  have hones : @unpackExponent .binary64 x.toBits.toBitVec = -1#11 ↔
      x.toBits.toNat / 2 ^ 52 % 2 ^ 11 = 2 ^ 11 - 1 := by
    rw [← BitVec.toNat_inj, hexponent]
    rfl
  have hzero : @unpackExponent .binary64 x.toBits.toBitVec = 0#11 ↔
      x.toBits.toNat / 2 ^ 52 % 2 ^ 11 = 0 := by
    rw [← BitVec.toNat_inj, hexponent]
    rfl
  have hwhole : @unpackMantissa .binary64 x.toBits.toBitVec = 0#52 ↔
      x.toBits.toNat % 2 ^ 52 = 0 := by
    rw [← BitVec.toNat_inj, hmantissa]
    rfl
  have hbits : x.toModel.toBits = x.toBits := rfl
  simp only [value?, Float.Model.unpack, UnpackedFloat.unpack, finite?, denotation, hbits, hones,
    hzero, hwhole, Nat.pow_eq]
  by_cases hnone : x.toBits.toNat / 2 ^ 52 % 2 ^ 11 = 2 ^ 11 - 1
  · simp only [if_pos hnone]
    by_cases hinfinite : x.toBits.toNat % 2 ^ 52 = 0
    · simp only [if_pos hinfinite, Option.map_none]
    · simp only [if_neg hinfinite, Option.map_none]
  simp only [if_neg hnone]
  by_cases hsmall : x.toBits.toNat / 2 ^ 52 % 2 ^ 11 = 0
  · simp only [if_pos hsmall, Option.map_some, value_eq_signed]
    by_cases hnull : x.toBits.toNat % 2 ^ 52 = 0
    · simp only [dif_pos hnull]
      simp only [hnull, Nat.cast_zero, zero_mul, signed_zero]
    · simp only [dif_neg hnull, hmantissa, hexponent, hsmall]
      rfl
  · have hleading : (1#1 ++ @unpackMantissa .binary64 x.toBits.toBitVec).toNat =
        2 ^ 52 + x.toBits.toNat % 2 ^ 52 := by
      rw [BitVec.toNat_append, ← Nat.shiftLeft_add_eq_or_of_lt (BitVec.isLt _), hmantissa]
      rfl
    simp only [if_neg hsmall, Option.map_some, value_eq_signed, hleading, hexponent]
    rfl

namespace Finite

variable {negative : Bool} {m : ℕ} {e : ℤ}

theorem value_negative : value ⟨true, m, e⟩ = -value ⟨false, m, e⟩ := by
  simp [value, signed]

theorem nearest_negative : nearest ⟨true, m, e⟩ = -nearest ⟨false, m, e⟩ := by
  cases e <;> rfl

/-- Without places after the point the real is a whole number. -/
theorem value_ofNat (k : ℕ) :
    value ⟨negative, m, .ofNat k⟩ = nearest ⟨negative, m, .ofNat k⟩ := by
  cases negative <;> simp [value, nearest, signed]

/-- The whole number that is computed is the nearest one. -/
theorem nearest_value (f : Finite) : Nearest f.value f.nearest := by
  obtain ⟨negative, m, e⟩ := f
  cases e with
  | ofNat e =>
    rw [value_ofNat]
    exact .intCast _
  | negSucc e =>
    have hpositive : Nearest (value ⟨false, m, .negSucc e⟩) (nearest ⟨false, m, .negSucc e⟩) := by
      have hvalue : value ⟨false, m, .negSucc e⟩ = m / 2 ^ (e + 1) := by
        simp [value, signed, zpow_negSucc, div_eq_mul_inv]
      have hnearest : nearest ⟨false, m, .negSucc e⟩ = ((m + 2 ^ e) / 2 ^ (e + 1) : ℕ) := rfl
      rw [hvalue, hnearest]
      have hdiv := Nat.div_add_mod (m + 2 ^ e) (2 ^ (e + 1))
      have hmod := Nat.mod_lt (m + 2 ^ e) (Nat.two_pow_pos (e + 1))
      generalize (m + 2 ^ e) / 2 ^ (e + 1) = n at hdiv ⊢
      generalize (m + 2 ^ e) % 2 ^ (e + 1) = r at hdiv hmod
      -- With half of the divisor added, the remainder says on which side of the half it was.
      have hdiv : (2 ^ (e + 1) * n + r : ℚ) = m + 2 ^ e := by exact_mod_cast hdiv
      have hmod : (r : ℚ) < 2 ^ (e + 1) := by exact_mod_cast hmod
      have hrem : (0 : ℚ) ≤ r := Nat.cast_nonneg r
      have hhalf : (2 ^ (e + 1) : ℚ) = 2 * 2 ^ e := pow_succ' 2 e
      have hpos : (0 : ℚ) < 2 ^ (e + 1) := by positivity
      refine .of_nonneg (by positivity) ?_ ?_
      · rw [le_div_iff₀ hpos, Int.cast_natCast]
        linarith
      · rw [div_lt_iff₀ hpos, Int.cast_natCast]
        linarith
    cases negative with
    | false => exact hpositive
    | true =>
      rw [value_negative, nearest_negative]
      exact hpositive.neg

/-- A whole number that is too long for the mantissa is nearest to itself only. -/
theorem value_eq_nearest {f : Finite} (hf : f.mantissa < 2 ^ 53)
    (hlong : 2 ^ 53 ≤ f.nearest.natAbs) : f.value = f.nearest := by
  obtain ⟨negative, m, e⟩ := f
  cases e with
  | ofNat e => exact value_ofNat e
  | negSucc e =>
    have hnearest : (nearest ⟨negative, m, .negSucc e⟩).natAbs = (m + 2 ^ e) / 2 ^ (e + 1) := by
      cases negative with
      | false => rfl
      | true => exact Int.natAbs_neg _
    have hpos : 0 < 2 ^ e := Nat.two_pow_pos e
    have hshort : (m + 2 ^ e) / 2 ^ (e + 1) < 2 ^ 53 := by
      rw [Nat.div_lt_iff_lt_mul (Nat.two_pow_pos _), pow_succ]
      dsimp only at hf
      omega
    omega

end Finite

theorem mantissa_lt {x : Float} {f : Finite} (h : finite? x = some f) : f.mantissa < 2 ^ 53 := by
  have hfraction := Nat.mod_lt x.toBits.toNat (Nat.two_pow_pos 52)
  rw [finite?, denotation] at h
  split at h
  · rename_i hx
    split_ifs at hx <;> cases hx <;> cases h <;> simp only [Nat.pow_eq] <;> omega
  · cases h

end Real

/-! ## The conversion -/

namespace Integer

/-- There is a number, the integer nearest to it is `n`, and it fits in 64 bits. -/
def Rounds (q? : Option ℚ) (n : ℤ) : Prop :=
  ∃ q, q? = some q ∧ Nearest q n ∧ Fits n

/-- The answer is the integer nearest to a number, if it fits, and else a fault of arithmetic. -/
structure Converted (q? : Option ℚ) (answer : Except Fault Int64) : Prop where
  ok_iff : (∃ i, answer = .ok i) ↔ ∃ n, Rounds q? n
  rounds : ∀ i, answer = .ok i → Rounds q? i.toInt
  kind : ∀ f, answer = .error f → f.report.kind = .arithmetic

variable {q? : Option ℚ} {n k : ℤ}

theorem Rounds.unique (h : Rounds q? n) (h' : Rounds q? k) : n = k := by
  obtain ⟨q, rfl, hn, -⟩ := h
  obtain ⟨_, ⟨⟩, hk, -⟩ := h'
  exact hn.unique hk

theorem converted_ok {i : Int64} (h : Rounds q? i.toInt) : Converted q? (.ok i) where
  ok_iff := ⟨fun _ => ⟨_, h⟩, fun _ => ⟨i, rfl⟩⟩
  rounds := by
    rintro _ ⟨⟩
    exact h
  kind _ hf := nomatch hf

theorem converted_error {f : Fault} (hf : f.report.kind = .arithmetic) (h : ∀ n, ¬Rounds q? n) :
    Converted q? (.error f) where
  ok_iff := by
    constructor
    · rintro ⟨i, hi⟩
      cases hi
    · rintro ⟨n, hn⟩
      exact absurd hn (h n)
  rounds _ hi := nomatch hi
  kind := by
    rintro _ ⟨⟩
    exact hf

/-- The nearest integer is made of every real but `2 ^ 63`. -/
theorem converted_ofReal {x : Float} (hx : Real.value? x ≠ some (2 ^ 63)) :
    Converted (Real.value? x) (ofReal x) := by
  rw [Real.value?_eq] at hx ⊢
  rw [ofReal, Real.nearest?]
  cases hfinite : Real.finite? x with
  | none => exact converted_error rfl nofun
  | some f =>
    rw [hfinite] at hx
    have hnearest := f.nearest_value
    have hne : f.nearest ≠ 2 ^ 63 := by
      intro heq
      have hvalue := Real.Finite.value_eq_nearest (Real.mantissa_lt hfinite) (by rw [heq]; decide)
      rw [heq] at hvalue
      exact hx (congrArg some (hvalue.trans (by norm_num)))
    have hmax : Int64.maxValue.toInt + 1 = 2 ^ 63 := rfl
    simp only [Option.map_some]
    split
    · rename_i hrange
      have hle : f.nearest ≤ Int64.maxValue.toInt := by omega
      refine converted_ok ⟨f.value, rfl, ?_⟩
      rw [Int.min_eq_left hle, Int64.toInt_ofInt_of_le hrange.1 (by omega)]
      exact ⟨hnearest, hrange.1, hle⟩
    · rename_i hrange
      refine converted_error rfl ?_
      rintro n ⟨_, ⟨⟩, hn, hmin, hmax⟩
      rw [hn.unique hnearest] at hmin hmax
      exact hrange ⟨hmin, by omega⟩

theorem nearest_two_pow : Nearest (2 ^ 63) (2 ^ 63) := by
  have hnearest := Nearest.intCast (2 ^ 63)
  rwa [Int.cast_pow, Int.cast_ofNat] at hnearest

theorem not_fits_two_pow : ¬Fits (2 ^ 63) := by
  rintro ⟨-, h⟩
  exact absurd h (by decide)

/-- What is made of the real `2 ^ 63` is the largest integer. -/
theorem ofReal_two_pow {x : Float} (hx : Real.value? x = some (2 ^ 63)) :
    ofReal x = .ok Int64.maxValue := by
  rw [Real.value?_eq, Option.map_eq_some_iff] at hx
  obtain ⟨f, hfinite, hvalue⟩ := hx
  have hnearest : f.nearest = 2 ^ 63 := (hvalue ▸ f.nearest_value).unique nearest_two_pow
  rw [ofReal, Real.nearest?, hfinite, Option.map_some, hnearest]
  rfl

/-- The real `2 ^ 63` is the only one of which not the nearest integer is made. -/
theorem converted_ofReal_iff (x : Float) :
    Converted (Real.value? x) (ofReal x) ↔ Real.value? x ≠ some (2 ^ 63) := by
  refine ⟨fun h hx => ?_, converted_ofReal⟩
  obtain ⟨q, hq, hnearest, hfits⟩ := h.rounds _ (ofReal_two_pow hx)
  cases hx.symm.trans hq
  rw [hnearest.unique nearest_two_pow] at hfits
  exact not_fits_two_pow hfits

end Integer

/-! ## Powers of fractions -/

namespace Fraction

/-- The powers of the terms, as reals. -/
def realPowers (a : Fraction) (x : Float) : Float × Float :=
  let (n, d) := if x < 0.0 then (a.den, a.num) else (a.num, a.den)
  ((Integer.toReal n).pow x.abs, (Integer.toReal d).pow x.abs)

/-- The answer is the quotient of the integers nearest to two numbers, if both fit, and else a
    fault of arithmetic. -/
structure Powered (r? s? : Option ℚ) (answer : Except Fault Number) : Prop where
  exact : ∀ n d, Integer.Rounds r? n → Integer.Rounds s? d →
    Number.Exact false (Arithmetic.divide.result? n d) answer
  error : (∀ n d, Integer.Rounds r? n → ¬Integer.Rounds s? d) →
    ∃ f, answer = .error f ∧ f.report.kind = .arithmetic

variable {r? s? : Option ℚ} {n? d? : Except Fault Int64}

theorem powered_error {f : Fault} (hf : f.report.kind = .arithmetic)
    (h : ∀ n d, Integer.Rounds r? n → ¬Integer.Rounds s? d) : Powered r? s? (.error f) where
  exact n d hn hd := absurd hd (h n d hn)
  error _ := ⟨f, rfl, hf⟩

theorem powered_of_converted (hn : Integer.Converted r? n?) (hd : Integer.Converted s? d?) :
    Powered r? s? (.fraction <$> (n? >>= fun n => d? >>= fun d => reduce n.toInt d.toInt)) := by
  cases n? with
  | error f =>
    refine powered_error (hn.kind f rfl) fun n _ hr _ => ?_
    obtain ⟨i, hi⟩ := hn.ok_iff.2 ⟨n, hr⟩
    cases hi
  | ok i =>
    cases d? with
    | error f =>
      refine powered_error (hd.kind f rfl) fun _ d _ hs => ?_
      obtain ⟨j, hj⟩ := hd.ok_iff.2 ⟨d, hs⟩
      cases hj
    | ok j =>
      have hi := hn.rounds i rfl
      have hj := hd.rounds j rfl
      refine ⟨fun n d hr hs => ?_, fun h => absurd hj (h _ _ hi)⟩
      rw [hr.unique hi, hs.unique hj]
      exact exact_reduce i.toInt j.toInt

end Fraction

/-! ## Numbers -/

/-- The integer made of a real is the nearest one, a half going away from zero, and if that does
    not fit, or the real is not finite, there is a fault of arithmetic, just if the real is not
    `2 ^ 63`. So it is for the powers of integers, and for both terms of those of fractions. -/
theorem conversion_exact (x : Float) (n : Int64) (e : Number) (a : Fraction) :
    (Integer.Converted (Real.value? x) (Integer.ofReal x) ↔ Real.value? x ≠ some (2 ^ 63)) ∧
    (Integer.Converted (Real.value? x) (Number.toInteger (.real x)) ↔
      Real.value? x ≠ some (2 ^ 63)) ∧
    (Real.value? ((Integer.toReal n).pow e.toReal) = some (2 ^ 63) ∨
      ∃ answer, Number.power (.integer n) e = .integer <$> answer ∧
        Integer.Converted (Real.value? ((Integer.toReal n).pow e.toReal)) answer) ∧
    (Real.value? (a.realPowers x).1 = some (2 ^ 63) ∨
      Real.value? (a.realPowers x).2 = some (2 ^ 63) ∨
      Fraction.Powered (Real.value? (a.realPowers x).1) (Real.value? (a.realPowers x).2)
        (.fraction <$> a.power x)) := by
  refine ⟨Integer.converted_ofReal_iff x, Integer.converted_ofReal_iff x, ?_, ?_⟩
  · exact or_iff_not_imp_left.2 fun hp => ⟨_, rfl, Integer.converted_ofReal hp⟩
  · refine or_iff_not_imp_left.2 fun hn => or_iff_not_imp_left.2 fun hd => ?_
    exact Fraction.powered_of_converted (Integer.converted_ofReal hn) (Integer.converted_ofReal hd)

/-- A half goes away from zero. -/
theorem conversion_exact_half :
    Real.value? 2.5 = some (5 / 2) ∧ Integer.ofReal 2.5 = .ok 3 ∧
      Integer.Converted (some (5 / 2)) (.ok 3) := by
  have hfinite : Real.finite? 2.5 = some ⟨false, 5 * 2 ^ 50, -51⟩ := by decide +kernel
  have hvalue : Real.value? 2.5 = some (5 / 2) := by
    rw [Real.value?_eq, hfinite]
    norm_num [Real.Finite.value, Real.Finite.signed]
  have hthree : Integer.ofReal 2.5 = .ok 3 := by decide +kernel
  obtain ⟨hconverted, -⟩ := conversion_exact 2.5 2 (.integer 3) (.ofInteger 2)
  rw [hvalue, hthree] at hconverted
  exact ⟨hvalue, hthree, hconverted.2 (by norm_num)⟩

/-- The largest integer is given for the real `2 ^ 63`, which is whole but one too large. -/
theorem conversion_saturates :
    let x := Float.ofBits 0x43E0000000000000
    Real.value? x = some (2 ^ 63) ∧ Nearest (2 ^ 63) (2 ^ 63) ∧ ¬Integer.Fits (2 ^ 63) ∧
      Integer.ofReal x = .ok Int64.maxValue ∧ Number.toInteger (.real x) = .ok Int64.maxValue := by
  intro x
  have hfinite : Real.finite? x = some ⟨false, 2 ^ 52, 11⟩ := by
    revert x
    decide +kernel
  have hvalue : Real.value? x = some (2 ^ 63) := by
    rw [Real.value?_eq, hfinite]
    norm_num [Real.Finite.value, Real.Finite.signed]
  have hmax := Integer.ofReal_two_pow hvalue
  exact ⟨hvalue, Integer.nearest_two_pow, Integer.not_fits_two_pow, hmax, hmax⟩

end Linewise
