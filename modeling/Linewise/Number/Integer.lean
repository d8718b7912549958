import Linewise.Fault

/-!
# Integers

An integer of the language has 64 bits, and a result that has no place in them
is a fault, never another number. Arithmetic is thus done on unbounded
integers and narrowed at the end (`narrow?`).
-/

namespace Linewise.Integer

/-- The integer of 64 bits equal to `n`, if there is one. -/
def narrow? (n : Int) : Option Int64 :=
  if Int64.minValue.toInt ≤ n ∧ n ≤ Int64.maxValue.toInt then some (Int64.ofInt n) else none

theorem narrow?_eq_some_iff {n : Int} {a : Int64} : narrow? n = some a ↔ a.toInt = n := by
  unfold narrow?
  constructor
  · intro h
    split at h
    · next hn =>
      obtain rfl := Option.some.inj h
      exact Int64.toInt_ofInt_of_le hn.1 (Int.lt_of_le_of_lt hn.2 (by decide))
    · contradiction
  · rintro rfl
    rw [if_pos ⟨a.minValue_le_toInt, a.toInt_le⟩, Int64.ofInt_toInt]

@[simp]
theorem narrow?_toInt (a : Int64) : narrow? a.toInt = some a :=
  narrow?_eq_some_iff.2 rfl

theorem narrow?_eq_none_iff {n : Int} :
    narrow? n = none ↔ n < Int64.minValue.toInt ∨ Int64.maxValue.toInt < n := by
  rw [← Int.not_le, ← Int.not_le, ← Decidable.not_and_iff_not_or_not]
  unfold narrow?
  split <;> simp_all

/-- The result of an operation on integers, which the quotient of two integers
    is not: it is a fraction. -/
def exact (op : Arithmetic) (a b : Int) : Int :=
  match op with
  | .add => a + b
  | .subtract => a - b
  | .multiply => a * b
  | .divide => a.tdiv b

/-- An operation on integers. -/
def arithmetic (op : Arithmetic) (a b : Int64) : Except Fault Int64 :=
  match narrow? (exact op a.toInt b.toInt) with
  | some n => .ok n
  | none => .error (.integerOverflow a op b)

def negate (a : Int64) : Except Fault Int64 :=
  match narrow? (-a.toInt) with
  | some n => .ok n
  | none => .error (.negationOverflow a)

def modulus (a : Int64) : Except Fault Int64 :=
  match narrow? a.toInt.natAbs with
  | some n => .ok n
  | none => .error (.modulusOverflow a)

/-- The real nearest to an integer. -/
def toReal (a : Int64) : Float :=
  Float.ofInt a.toInt

/-- The integer nearest to a real; a half goes away from zero. The bounds of
    the integers are compared as reals, and the real nearest to the largest
    integer is `2 ^ 63`, which is thus taken for it. -/
def ofReal (x : Float) : Except Fault Int64 :=
  match Real.nearest? x with
  | some n =>
    if Int64.minValue.toInt ≤ n ∧ n ≤ Int64.maxValue.toInt + 1 then
      .ok (Int64.ofInt (min n Int64.maxValue.toInt))
    else .error (.integerRange x)
  | none => .error (.integerRange x)

/-- The text of an integer. -/
def text (a : Int64) : String :=
  toString a.toInt

end Linewise.Integer
