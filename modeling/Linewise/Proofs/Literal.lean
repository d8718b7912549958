import Linewise.Proofs.Name
import Mathlib

/-!
# Literals

A symbol is a number if it is made of decimal digits, or of digits on both sides of one point
(`Symbol.literal?_eq_some_iff`). Digits denote the integer that they stand for if it has a place
in 64 bits, so that the text of an integer is read back (`Symbol.literal?_repr`), and else a real,
as all numbers with a point do. Signs and names are no numbers.

Which readers there are for them, and in which order they are tried, makes no difference for this
(`Symbol.Reader.number_eq_some_iff`).
-/

namespace Linewise

namespace Integer

/-- The numbers that have a place in 64 bits. -/
theorem exists_toInt_eq_iff {k : ℤ} :
    (∃ n : Int64, n.toInt = k) ↔ -2 ^ 63 ≤ k ∧ k ≤ 2 ^ 63 - 1 := by
  constructor
  · rintro ⟨n, rfl⟩
    exact ⟨n.minValue_le_toInt, n.toInt_le⟩
  · rintro ⟨hmin, hmax⟩
    exact ⟨.ofInt k, Int64.toInt_ofInt_of_le hmin (by omega)⟩

theorem text_of_nonneg {n : Int64} (h : 0 ≤ n.toInt) : text n = n.toInt.natAbs.repr := by
  rw [text, Int.toString_eq_repr, Int.repr_eq_if, if_pos h]
  congr 1
  omega

end Integer

namespace Symbol

/-! ## Digits -/

/-- Digits on both sides of one point. -/
def IsPointed (cs : List Char) : Prop :=
  ∃ whole fraction, cs = whole ++ '.' :: fraction ∧ IsDigits whole ∧ IsDigits fraction

/-- The number that digits stand for, each in its place. -/
def placeValue (cs : List Char) : ℕ :=
  Nat.ofDigits 10 (cs.reverse.map fun c => c.toNat - '0'.toNat)

theorem decimal_eq_placeValue (cs : List Char) : decimal cs = placeValue cs := by
  induction cs using List.reverseRecOn with
  | nil => rfl
  | append_singleton cs c ih =>
    have hsnoc : decimal (cs ++ [c]) = 10 * decimal cs + (c.toNat - '0'.toNat) := by
      rw [decimal, List.foldl_append]
      rfl
    rw [hsnoc, ih, placeValue, placeValue, List.reverse_append, List.reverse_singleton,
      List.singleton_append, List.map_cons, Nat.ofDigits_cons, Nat.add_comm]

theorem decimal_toDigits (n : Nat) : decimal (Nat.toDigits 10 n) = n := by
  rw [decimal, ← Nat.ofDigitChars_eq_foldl]
  exact Nat.ofDigitChars_toDigits (by decide) (by decide)

theorem isDigits_repr (n : Nat) : IsDigits n.repr.toList := by
  rw [Nat.toList_repr]
  exact ⟨Nat.toDigits_ne_nil, fun c => Nat.isDigit_of_mem_toDigits (by decide) (by decide)⟩

theorem IsPointed.not_isDigits {cs : List Char} (h : IsPointed cs) : ¬IsDigits cs := by
  obtain ⟨whole, fraction, rfl, -, -⟩ := h
  intro hdigits
  have hpoint := hdigits.2 '.' (List.mem_append_right _ List.mem_cons_self)
  exact absurd hpoint (by decide)

/-! ## The forms of a number -/

/-- The symbol is a number: digits, which are an integer if it has a place in 64 bits and else a
    real, or digits on both sides of a point, which are a real with as many places as digits
    follow the point. -/
inductive IsLiteral : List Char → Number → Prop
  | integer {cs : List Char} {n : Int64} (digits : IsDigits cs) (value : placeValue cs = n.toInt) :
      IsLiteral cs (.integer n)
  | wide {cs : List Char} (digits : IsDigits cs) (large : 2 ^ 63 - 1 < placeValue cs) :
      IsLiteral cs (.real (Float.ofScientific (placeValue cs) false 0))
  | pointed {whole fraction : List Char} (digits : IsDigits whole) (places : IsDigits fraction) :
      IsLiteral (whole ++ '.' :: fraction)
        (.real (Float.ofScientific (placeValue (whole ++ fraction)) true fraction.length))

variable {cs : List Char} {n : Number}

theorem isLiteral_literalOfDigits (h : IsDigits cs) : IsLiteral cs (literalOfDigits cs none) := by
  rw [literalOfDigits, decimal_eq_placeValue]
  cases hn : Integer.narrow? (placeValue cs) with
  | some n => exact .integer h (Integer.narrow?_eq_some_iff.1 hn).symm
  | none =>
    have hmax : Int64.maxValue.toInt = 2 ^ 63 - 1 := rfl
    have hmin : Int64.minValue.toInt = -2 ^ 63 := rfl
    rw [Integer.narrow?_eq_none_iff] at hn
    exact .wide h (by omega)

theorem IsLiteral.eq_literalOfDigits (h : IsLiteral cs n) (hcs : IsDigits cs) :
    n = literalOfDigits cs none := by
  rw [literalOfDigits, decimal_eq_placeValue]
  cases h with
  | integer _ value => rw [value, Integer.narrow?_toInt]
  | wide _ large =>
    have hmax : Int64.maxValue.toInt = 2 ^ 63 - 1 := rfl
    rw [Integer.narrow?_eq_none_iff.2 (.inr (by omega))]
  | pointed digits places => exact absurd hcs (IsPointed.not_isDigits ⟨_, _, rfl, digits, places⟩)

/-- The readers, tried in order, take all of just what is a number. -/
theorem Reader.number_eq_some_iff : number cs = some (n, []) ↔ IsLiteral cs n := by
  constructor
  · intro h
    rcases hdigits : digits cs with _ | ⟨ds, rest⟩
    · rw [number_of_none hdigits] at h
      cases h
    obtain ⟨hds, hcs, -⟩ := digits_eq_some_iff.1 hdigits
    by_cases hpoint : rest.head? = some '.'
    · -- Only the first reader takes the point, and it has to find digits after it.
      obtain ⟨fraction, rfl⟩ := List.head?_eq_some_iff.1 hpoint
      rw [number_of_point hdigits] at h
      rcases hplaces : digits fraction with _ | ⟨places, rest⟩ <;> rw [hplaces] at h <;> cases h
      obtain ⟨hfraction, rfl, -⟩ := digits_eq_some_iff.1 hplaces
      rw [List.append_nil] at hcs
      rw [hcs, literalOfDigits, decimal_eq_placeValue]
      exact .pointed hds hfraction
    · rw [number_of_ne_point hdigits hpoint] at h
      cases h
      rw [List.append_nil] at hcs
      rw [hcs]
      exact isLiteral_literalOfDigits hds
  · intro h
    by_cases hcs : IsDigits cs
    · rw [number_of_ne_point (digits_of_isDigits hcs) (by decide), h.eq_literalOfDigits hcs]
    cases h with
    | integer digits _ | wide digits _ => exact absurd digits hcs
    | pointed hwhole hplaces =>
      rw [number_of_point (digits_append_point hwhole), digits_of_isDigits hplaces,
        ← decimal_eq_placeValue]
      rfl

/-- The forms of a number, and the number that each of them denotes. -/
theorem literal?_eq_some_iff {s : String} : literal? s = some n ↔ IsLiteral s.toList n := by
  rw [literal?, Reader.whole?_eq_some_iff, Reader.number_eq_some_iff]

theorem isLiteral_integer_iff {k : Int64} :
    IsLiteral cs (.integer k) ↔ IsDigits cs ∧ placeValue cs = k.toInt := by
  constructor
  · intro h
    cases h with
    | integer digits value => exact ⟨digits, value⟩
  · rintro ⟨digits, value⟩
    exact .integer digits value

/-- Digits are an integer if it has a place in 64 bits. -/
theorem exists_integer_iff {k : ℤ} :
    (∃ n : Int64, IsLiteral cs (.integer n) ∧ n.toInt = k) ↔
      IsDigits cs ∧ placeValue cs = k ∧ k ≤ 2 ^ 63 - 1 := by
  simp only [isLiteral_integer_iff]
  constructor
  · rintro ⟨n, ⟨digits, value⟩, rfl⟩
    exact ⟨digits, value, (Integer.exists_toInt_eq_iff.1 ⟨n, rfl⟩).2⟩
  · rintro ⟨digits, rfl, hle⟩
    obtain ⟨n, hn⟩ := Integer.exists_toInt_eq_iff.2 ⟨by omega, hle⟩
    exact ⟨n, ⟨digits, hn.symm⟩, hn⟩

/-- Digits are a real if the integer is too large, and numbers with a point always are. -/
theorem exists_real_iff :
    (∃ x, IsLiteral cs (.real x)) ↔ (IsDigits cs ∧ 2 ^ 63 - 1 < placeValue cs) ∨ IsPointed cs := by
  constructor
  · rintro ⟨x, h⟩
    cases h with
    | wide digits large => exact .inl ⟨digits, large⟩
    | pointed digits places => exact .inr ⟨_, _, rfl, digits, places⟩
  · rintro (⟨digits, large⟩ | ⟨whole, fraction, rfl, digits, places⟩)
    · exact ⟨_, .wide digits large⟩
    · exact ⟨_, .pointed digits places⟩

theorem exists_isLiteral_iff : (∃ n, IsLiteral cs n) ↔ IsDigits cs ∨ IsPointed cs := by
  constructor
  · rintro ⟨n, h⟩
    cases h with
    | integer digits _ | wide digits _ => exact .inl digits
    | pointed digits places => exact .inr ⟨_, _, rfl, digits, places⟩
  · rintro (digits | ⟨whole, fraction, rfl, digits, places⟩)
    · exact ⟨_, isLiteral_literalOfDigits digits⟩
    · exact ⟨_, .pointed digits places⟩

/-- The digits of a number denote it, if it has a place in the integers. -/
theorem literal?_repr {n : Nat} {k : Int64} (h : k.toInt = n) :
    literal? n.repr = some (.integer k) := by
  have value : placeValue n.repr.toList = n := by
    rw [← decimal_eq_placeValue, Nat.toList_repr, decimal_toDigits]
  exact literal?_eq_some_iff.2 (.integer (isDigits_repr n) (by rw [value, h]))

/-- The text of an integer is read back, unless it has a sign, which is no part of a number. -/
theorem literal?_text_iff (m : Memory) (n : Int64) :
    literal? (m.text (.integer n)) = some (.integer n) ↔ 0 ≤ n.toInt := by
  constructor
  · intro h
    obtain ⟨-, value⟩ := isLiteral_integer_iff.1 (literal?_eq_some_iff.1 h)
    exact value ▸ Int.natCast_nonneg _
  · intro h
    have htext : m.text (.integer n) = n.toInt.natAbs.repr := Integer.text_of_nonneg h
    rw [htext]
    exact literal?_repr (Int.natAbs_of_nonneg h).symm

/-- A symbol is an integer just if it is made of digits that stand for one with a place in 64
    bits, a real just if it is made of digits that stand for a larger one or of digits on both
    sides of one point, and else no number. No number is a name, and the text of an integer is
    read back just if it is not negative. -/
theorem literal_grammar :
    (∀ s : String,
      (∀ k : ℤ, (∃ n : Int64, literal? s = some (.integer n) ∧ n.toInt = k) ↔
        IsDigits s.toList ∧ placeValue s.toList = k ∧ k ≤ 2 ^ 63 - 1) ∧
      ((∃ x, literal? s = some (.real x)) ↔
        (IsDigits s.toList ∧ 2 ^ 63 - 1 < placeValue s.toList) ∨ IsPointed s.toList) ∧
      (literal? s = none ↔ ¬(IsDigits s.toList ∨ IsPointed s.toList)) ∧
      ¬((literal? s).isSome = true ∧ isName s = true)) ∧
    ∀ (m : Memory) (n : Int64),
      literal? (m.text (.integer n)) = some (.integer n) ↔ 0 ≤ n.toInt := by
  refine ⟨fun s => ⟨fun k => ?_, ?_, ?_, ?_⟩, literal?_text_iff⟩
  · simp only [literal?_eq_some_iff]
    exact exists_integer_iff
  · simp only [literal?_eq_some_iff]
    exact exists_real_iff
  · simp only [← exists_isLiteral_iff, ← literal?_eq_some_iff, ← Option.isSome_iff_exists,
      Option.not_isSome_iff_eq_none]
  · rintro ⟨hnumber, hname⟩
    rw [literal?_of_isName hname] at hnumber
    cases hnumber

end Symbol

end Linewise
