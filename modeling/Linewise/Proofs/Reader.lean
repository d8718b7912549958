import Linewise.Symbol
import Mathlib.Data.List.TakeWhile

/-!
# Readers of numbers

A number is read by the first of three readers that takes the start of the symbol
(`Symbol.literal?`): digits, a point and digits; digits that are an integer; any digits. All of
them start with digits and take as many as there are (`Reader.digits_eq_some_iff`). Whether the
symbol ends there is asked only afterwards, and what one reader has taken is not offered to the
next. In `1.` the first reader misses digits after the point and the second one takes the `1`,
which leaves a point, so that it is no number.

Together the readers take digits, with at most one point between two of them
(`Symbol.literal?_eq`).
-/

namespace Linewise.Symbol

/-- Decimal digits, at least one, and nothing else. -/
def IsDigits (cs : List Char) : Prop :=
  cs ≠ [] ∧ ∀ c ∈ cs, c.isDigit = true

theorem isDigits_iff {cs : List Char} :
    (!cs.isEmpty && cs.all Char.isDigit) = true ↔ IsDigits cs := by
  simp [IsDigits]

/-- The number written as `whole`, or as `whole`, a point and `fraction`. What
    has a point is a real, and so is what does not fit in an integer. -/
def literalOfDigits (whole : List Char) (fraction : Option (List Char)) : Number :=
  match fraction with
  | some fraction => .real (Float.ofScientific (decimal (whole ++ fraction)) true fraction.length)
  | none =>
    match Integer.narrow? (decimal whole) with
    | some n => .integer n
    | none => .real (Float.ofScientific (decimal whole) false 0)

namespace Reader

variable {α : Type} {read : Reader α} {cs ds rest : List Char} {n : Number}

theorem whole?_eq_some_iff {a : α} : read.whole? cs = some a ↔ read cs = some (a, []) := by
  rw [whole?]
  split <;> simp_all

theorem digits_eq_some_iff :
    digits cs = some (ds, rest) ↔
      IsDigits ds ∧ cs = ds ++ rest ∧ ∀ c ∈ rest.head?, c.isDigit = false := by
  constructor
  · intro h
    rw [digits, Option.ite_none_left_eq_some, Option.some.injEq, Prod.mk.injEq] at h
    obtain ⟨hne, rfl, rfl⟩ := h
    refine ⟨⟨mt List.isEmpty_iff.2 hne, fun c => List.all_eq_true.1 List.all_takeWhile c⟩,
      List.takeWhile_append_dropWhile.symm, fun c hc => ?_⟩
    have hnot := List.head?_dropWhile_not Char.isDigit cs
    rw [hc] at hnot
    exact hnot
  · rintro ⟨⟨hne, hdigits⟩, rfl, hrest⟩
    have hstop : rest.takeWhile Char.isDigit = [] ∧ rest.dropWhile Char.isDigit = rest := by
      cases rest with
      | nil => exact ⟨rfl, rfl⟩
      | cons c rest =>
        have hc : ¬c.isDigit = true := Bool.eq_false_iff.1 (hrest c rfl)
        exact ⟨List.takeWhile_cons_of_neg hc, List.dropWhile_cons_of_neg hc⟩
    rw [digits, List.takeWhile_append_of_pos hdigits, List.dropWhile_append_of_pos hdigits,
      hstop.1, hstop.2, List.append_nil, if_neg (mt List.isEmpty_iff.1 hne)]

theorem digits_of_isDigits (h : IsDigits cs) : digits cs = some (cs, []) :=
  digits_eq_some_iff.2 ⟨h, (List.append_nil cs).symm, nofun⟩

/-- Digits go up to a point. -/
theorem digits_append_point (h : IsDigits ds) :
    digits (ds ++ '.' :: rest) = some (ds, '.' :: rest) :=
  digits_eq_some_iff.2 ⟨h, rfl, by rintro _ ⟨⟩; rfl⟩

/-- The last two readers together give what digits without a point denote. -/
theorem integer_or_wide (h : digits cs = some (ds, rest)) :
    (integer cs).or (wide cs) = some (literalOfDigits ds none, rest) := by
  rw [integer, wide, h, literalOfDigits]
  cases hn : Integer.narrow? (decimal ds) <;> simp [hn]

theorem number_of_ne_point (h : digits cs = some (ds, rest)) (hrest : rest.head? ≠ some '.') :
    number cs = some (literalOfDigits ds none, rest) := by
  have hpointed : pointed cs = none := by
    rw [pointed, h]
    rcases rest with _ | ⟨c, rest⟩
    · rfl
    · have hc : c ≠ '.' := fun hc => hrest (congrArg some hc)
      simp [hc]
  rw [number, hpointed, Option.none_or, integer_or_wide h]

theorem number_of_point (h : digits cs = some (ds, '.' :: rest)) :
    number cs = ((digits rest).map fun (fraction, rest) =>
      (literalOfDigits ds (some fraction), rest)).or
        (some (literalOfDigits ds none, '.' :: rest)) := by
  rw [number, integer_or_wide h, pointed, h]
  cases hfraction : digits rest <;> simp [hfraction, literalOfDigits]

/-- After digits and a point there have to be digits, and nothing else. -/
theorem whole?_number_of_point (h : digits cs = some (ds, '.' :: rest)) :
    number.whole? cs =
      if !rest.isEmpty && rest.all Char.isDigit then some (literalOfDigits ds (some rest))
      else none := by
  rw [whole?, number_of_point h]
  by_cases hplaces : IsDigits rest
  · rw [if_pos (isDigits_iff.2 hplaces), digits_of_isDigits hplaces]
    rfl
  · -- What is left is the point, or what follows the digits after it.
    rw [if_neg (mt isDigits_iff.1 hplaces)]
    rcases hread : digits rest with _ | ⟨places, _ | ⟨c, rest⟩⟩
    · rfl
    · obtain ⟨hdigits, rfl, -⟩ := digits_eq_some_iff.1 hread
      rw [List.append_nil] at hplaces
      exact absurd hdigits hplaces
    · rfl

theorem number_of_none (h : digits cs = none) : number cs = none := by
  simp [number, pointed, integer, wide, h]

end Reader

/-- A symbol is a number if it is made of digits, with at most one point between two of
    them. -/
theorem literal?_eq (s : String) :
    literal? s =
      let whole := s.toList.takeWhile Char.isDigit
      if whole.isEmpty then none
      else
        match s.toList.dropWhile Char.isDigit with
        | [] => some (literalOfDigits whole none)
        | '.' :: fraction =>
          if !fraction.isEmpty && fraction.all Char.isDigit then
            some (literalOfDigits whole (some fraction))
          else none
        | _ => none := by
  rw [literal?]
  generalize s.toList = cs
  dsimp only
  by_cases hwhole : (cs.takeWhile Char.isDigit).isEmpty = true
  · rw [if_pos hwhole, Reader.whole?, Reader.number_of_none (if_pos hwhole)]
  have hdigits : Reader.digits cs = some (cs.takeWhile Char.isDigit, cs.dropWhile Char.isDigit) :=
    if_neg hwhole
  rw [if_neg hwhole]
  generalize cs.takeWhile Char.isDigit = whole, cs.dropWhile Char.isDigit = rest at hdigits ⊢
  rcases rest with _ | ⟨c, fraction⟩
  · rw [Reader.whole?, Reader.number_of_ne_point hdigits (by decide)]
  by_cases hpoint : c = '.'
  · subst hpoint
    exact Reader.whole?_number_of_point hdigits
  · have hhead : (c :: fraction).head? ≠ some '.' := fun h => hpoint (Option.some.inj h)
    rw [Reader.whole?, Reader.number_of_ne_point hdigits hhead]
    simp [hpoint]

/-- The digit is taken as an integer, and the point is left. -/
example : Reader.number "1.".toList = some (.integer 1, ['.']) ∧ literal? "1." = none :=
  ⟨rfl, rfl⟩

end Linewise.Symbol
