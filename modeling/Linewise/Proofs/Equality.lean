import Linewise.Operation
import Linewise.Proofs.Exact
import Linewise.Proofs.Precedence

/-!
# Equality of exact data

Exact data are numbers other than reals, booleans, strings, `nil`, and lists of such.
What a value is, whatever the kind of the numbers in it, is a `Datum` (`Value.Denotes`),
and `=` finds two of them equal if and only if they are the same datum
(`Operation.equalWith_iff`).

* Fractions in lowest terms are equal only if they have the same terms
  (`Number.equal_iff`), so that numbers are compared as rational numbers, in lists too.
* `=` refuses to compare a boolean with a string, and lists are compared up to the first
  place in which they differ, so that a list may hide what it would refuse further
  behind. It hides the same from both sides (`Operation.equalWith_comm`): that two
  values differ in a place, or cannot be compared there, does not depend on the side.

That `=` is an equivalence, up to the pairs that it refuses, and `/=` its negation,
follows (`equality_equivalence`).
-/

namespace Linewise

/-- What an exact value is. -/
inductive Datum where
  | number (q : ℚ)
  | boolean (b : Bool)
  | string (s : String)
  | nil
  | list (data : List Datum)

mutual

/-- The value is exact, and what it is: numbers are no reals, and fractions are in
    lowest terms. -/
inductive Value.Denotes : Value → Datum → Prop
  | number {whole : Bool} {q : ℚ} {n : Number} (h : Number.Stands whole q n) :
    Denotes (.number n) (.number q)
  | boolean (b : Bool) : Denotes (.boolean b) (.boolean b)
  | string (s : String) : Denotes (.string s) (.string s)
  | nil : Denotes .nil .nil
  | list {values : List Value} {data : List Datum} (h : DenoteAll values data) :
    Denotes (.list values) (.list data)

/-- The values are exact, one by one. -/
inductive Value.DenoteAll : List Value → List Datum → Prop
  | nil : DenoteAll [] []
  | cons {v : Value} {d : Datum} {values : List Value} {data : List Datum}
    (h : Denotes v d) (hs : DenoteAll values data) : DenoteAll (v :: values) (d :: data)

end

theorem Value.DenoteAll.length_eq :
    ∀ {values : List Value} {data : List Datum}, DenoteAll values data →
      values.length = data.length
  | _, _, .nil => rfl
  | _, _, .cons _ hs => congrArg (· + 1) hs.length_eq

/-! ## Numbers -/

theorem Fraction.eq_of_value_eq {a b : Fraction} (ha : a.IsLowest) (hb : b.IsLowest)
    (h : a.value = b.value) : a = b := by
  have hnum : a.num.toInt = b.num.toInt := by
    rw [← Rat.num_div_eq_of_coprime a.den_pos ha, ← Rat.num_div_eq_of_coprime b.den_pos hb]
    exact congrArg Rat.num h
  have hden : a.den.toInt = b.den.toInt := by
    rw [← Rat.den_div_eq_of_coprime a.den_pos ha, ← Rat.den_div_eq_of_coprime b.den_pos hb]
    exact congrArg (fun q : ℚ => (q.den : Int)) h
  rw [Int64.toInt_inj] at hnum hden
  cases a
  cases b
  congr

namespace Number

variable {whole whole' : Bool} {x y : ℚ} {a b : Number}

/-- The fraction that stands for an exact number is in lowest terms and has its value. -/
theorem Stands.toFraction (h : Stands whole x a) :
    a.toFraction.IsLowest ∧ a.toFraction.value = x := by
  cases h with
  | integer n => exact ⟨Fraction.ofInteger_isLowest n, Fraction.value_ofInteger n⟩
  | fraction h => exact ⟨h, rfl⟩

theorem toFraction_inj (ha : Stands whole x a) (hb : Stands whole' y b) :
    a.toFraction = b.toFraction ↔ x = y := by
  obtain ⟨hlowest, hx⟩ := ha.toFraction
  obtain ⟨hlowest', hy⟩ := hb.toFraction
  rw [← hx, ← hy]
  exact ⟨congrArg _, Fraction.eq_of_value_eq hlowest hlowest'⟩

theorem equal_iff (ha : Stands whole x a) (hb : Stands whole' y b) :
    a.equal b = true ↔ x = y := by
  have hequal : a.equal b = (a.toFraction == b.toFraction) := by
    cases ha <;> cases hb <;> rfl
  rw [hequal, beq_iff_eq, toFraction_inj ha hb]

theorem equal_comm (ha : Stands whole x a) (hb : Stands whole' y b) :
    a.equal b = b.equal a := by
  rw [Bool.eq_iff_iff, equal_iff ha hb, equal_iff hb ha, eq_comm]

end Number

/-! ## Values -/

namespace Operation

variable {m : Memory} {ofVar : VarRef → Value → Except Fault Bool}
  {a b : Value} {x y : Datum} {as bs : List Value} {xs ys : List Datum}

/-- Exact data are no references. -/
theorem dereference_of_denotes (ha : a.Denotes x) : m.dereference a = .ok a := by
  cases ha <;> rfl

/-! ### Scalars -/

theorem equalScalars_iff (ha : a.Denotes x) (hb : b.Denotes y)
    (h : ¬∃ as bs, a = .list as ∧ b = .list bs) :
    equalScalars false a b = .ok true ↔ x = y := by
  cases ha with
  | number ha =>
    cases hb with
    | number hb =>
      simpa only [equalScalars, Bool.false_eq_true, if_false, Except.ok.injEq, Datum.number.injEq]
        using Number.equal_iff ha hb
    | _ => simp [equalScalars]
  | list ha =>
    cases hb with
    | list hb => exact absurd ⟨_, _, rfl, rfl⟩ h
    | _ => simp [equalScalars]
  | _ => cases hb <;> simp [equalScalars]

theorem equalScalars_comm (ha : a.Denotes x) (hb : b.Denotes y)
    (h : ¬∃ as bs, a = .list as ∧ b = .list bs) :
    (equalScalars false a b).toOption = (equalScalars false b a).toOption := by
  cases ha with
  | number ha =>
    cases hb with
    | number hb => exact congrArg some (Number.equal_comm ha hb)
    | _ => rfl
  | list ha =>
    cases hb with
    | list hb => exact absurd ⟨_, _, rfl, rfl⟩ h
    | _ => rfl
  | _ => cases hb <;> first | rfl | exact congrArg some Bool.beq_comm

/-- What are not both lists is compared as scalars, on either side. -/
theorem equalWith_eq_equalScalars (ha : a.Denotes x) (hb : b.Denotes y)
    (h : ¬∃ as bs, a = .list as ∧ b = .list bs) :
    equalWith m ofVar false a b = equalScalars false a b := by
  cases ha with
  | list ha =>
    cases hb with
    | list hb => exact absurd ⟨_, _, rfl, rfl⟩ h
    | _ => rfl
  | _ => rw [equalWith, dereference_of_denotes hb] <;> first | rfl | (intro _ h; cases h)

/-! ### Lists -/

theorem equalWith_list (as bs : List Value) :
    equalWith m ofVar false (.list as) (.list bs) =
      if as.length = bs.length then equalAllWith m ofVar false as bs else .ok false :=
  rfl

theorem equalAllWith_cons_iff :
    equalAllWith m ofVar false (a :: as) (b :: bs) = .ok true ↔
      equalWith m ofVar false a b = .ok true ∧ equalAllWith m ofVar false as bs = .ok true := by
  rw [equalAllWith]
  cases equalWith m ofVar false a b with
  | error f => simp [bind, Except.bind]
  | ok t => cases t <;> simp [bind, Except.bind, pure, Except.pure]

mutual

/-- Exact data are equal if and only if they are the same datum. -/
theorem equalWith_iff {a b : Value} {x y : Datum} (ha : a.Denotes x) (hb : b.Denotes y) :
    equalWith m ofVar false a b = .ok true ↔ x = y := by
  by_cases h : ∃ as bs, a = .list as ∧ b = .list bs
  · obtain ⟨as, bs, rfl, rfl⟩ := h
    cases ha with | list ha =>
    cases hb with | list hb =>
    rw [equalWith_list, Datum.list.injEq]
    by_cases hlength : as.length = bs.length
    · rw [if_pos hlength]
      exact equalAllWith_iff ha hb hlength
    · rw [if_neg hlength]
      refine iff_of_false (fun hno => ?_) fun hxy => hlength ?_
      · cases hno
      rw [ha.length_eq, hb.length_eq, hxy]
  · rw [equalWith_eq_equalScalars ha hb h]
    exact equalScalars_iff ha hb h

theorem equalAllWith_iff {as bs : List Value} {xs ys : List Datum}
    (has : Value.DenoteAll as xs) (hbs : Value.DenoteAll bs ys) (h : as.length = bs.length) :
    equalAllWith m ofVar false as bs = .ok true ↔ xs = ys := by
  cases has with
  | nil =>
    cases hbs with
    | nil => exact iff_of_true rfl rfl
    | cons hb hbs => cases h
  | cons ha has =>
    cases hbs with
    | nil => cases h
    | cons hb hbs =>
      rw [equalAllWith_cons_iff, equalWith_iff ha hb,
        equalAllWith_iff has hbs (Nat.succ.inj h), List.cons.injEq]

end

mutual

/-- Which of two exact data is on the left makes no difference, up to the text of the
    fault if they cannot be compared. -/
theorem equalWith_comm {a b : Value} {x y : Datum} (ha : a.Denotes x) (hb : b.Denotes y) :
    (equalWith m ofVar false a b).toOption = (equalWith m ofVar false b a).toOption := by
  by_cases h : ∃ as bs, a = .list as ∧ b = .list bs
  · obtain ⟨as, bs, rfl, rfl⟩ := h
    cases ha with | list ha =>
    cases hb with | list hb =>
    rw [equalWith_list, equalWith_list]
    by_cases hlength : as.length = bs.length
    · rw [if_pos hlength, if_pos hlength.symm]
      exact equalAllWith_comm ha hb
    · rw [if_neg hlength, if_neg (Ne.symm hlength)]
  · have h' : ¬∃ bs as, b = .list bs ∧ a = .list as := fun ⟨bs, as, hb, ha⟩ => h ⟨as, bs, ha, hb⟩
    rw [equalWith_eq_equalScalars ha hb h, equalWith_eq_equalScalars hb ha h']
    exact equalScalars_comm ha hb h

theorem equalAllWith_comm {as bs : List Value} {xs ys : List Datum}
    (has : Value.DenoteAll as xs) (hbs : Value.DenoteAll bs ys) :
    (equalAllWith m ofVar false as bs).toOption =
      (equalAllWith m ofVar false bs as).toOption := by
  cases has with
  | nil => cases hbs <;> rfl
  | cons ha has =>
    cases hbs with
    | nil => rfl
    | cons hb hbs =>
      -- The first places decide the same, and then the others do if they have to.
      rw [equalAllWith, equalAllWith, toOption_bind, toOption_bind, equalWith_comm ha hb]
      congr
      funext t
      cases t with
      | true => exact equalAllWith_comm has hbs
      | false => rfl

end

/-! ### The operators -/

theorem equality_equal_iff (ha : a.Denotes x) (hb : b.Denotes y) :
    equality m .equal a b = .ok (.boolean true) ↔ x = y := by
  have hequal : equalWith m (equalVariable m false m.vars.size) false a b = .ok true ↔ x = y :=
    equalWith_iff ha hb
  rw [← hequal, equality, equal]
  cases equalWith m (equalVariable m false m.vars.size) false a b with
  | error f => simp [bind, Except.bind]
  | ok t => simp [bind, Except.bind, pure, Except.pure]

/-- Both sides of `=` give the same boolean and `/=` the other, or all of them fail. -/
theorem equality_comm (ha : a.Denotes x) (hb : b.Denotes y) :
    (∃ t, equality m .equal a b = .ok (.boolean t) ∧ equality m .equal b a = .ok (.boolean t) ∧
        equality m .unequal a b = .ok (.boolean !t)) ∨
      (∃ f, equality m .equal a b = .error f ∧ equality m .unequal a b = .error f) ∧
        ∃ f, equality m .equal b a = .error f := by
  have hcomm : (equalWith m (equalVariable m false m.vars.size) false a b).toOption =
      (equalWith m (equalVariable m false m.vars.size) false b a).toOption :=
    equalWith_comm ha hb
  rw [equality, equality, equality, equal, equal]
  cases hab : equalWith m (equalVariable m false m.vars.size) false a b with
  | ok t =>
    have hba : equalWith m (equalVariable m false m.vars.size) false b a = .ok t := by
      rw [← toOption_eq_some_iff, ← hcomm, hab]
      rfl
    rw [hba]
    exact .inl ⟨t, rfl, rfl, rfl⟩
  | error f =>
    cases hba : equalWith m (equalVariable m false m.vars.size) false b a with
    | ok t =>
      rw [hab, hba] at hcomm
      cases hcomm
    | error g => exact .inr ⟨⟨f, rfl, rfl⟩, g, rfl⟩

end Operation

/-- On exact data `=` is an equivalence, and tells whether they are the same up to the kind
    of the numbers in them; `/=` is its negation. Where `=` refuses to compare two values, it
    refuses so from both sides, and so does `/=`. -/
theorem equality_equivalence {a b c : Value} {x y z : Datum} (m : Memory) (ha : a.Denotes x)
    (hb : b.Denotes y) (hc : c.Denotes z) :
    let equal := Operation.equality m .equal
    let unequal := Operation.equality m .unequal
    equal a a = .ok (.boolean true) ∧
      ((∃ t, equal a b = .ok (.boolean t) ∧ equal b a = .ok (.boolean t) ∧
          unequal a b = .ok (.boolean !t)) ∨
        (∃ f, equal a b = .error f ∧ unequal a b = .error f) ∧ ∃ f, equal b a = .error f) ∧
      (equal a b = .ok (.boolean true) → equal b c = .ok (.boolean true) →
        equal a c = .ok (.boolean true)) ∧
      (equal a b = .ok (.boolean true) ↔ x = y) := by
  intro equal unequal
  refine ⟨(Operation.equality_equal_iff ha ha).2 rfl, Operation.equality_comm ha hb, ?_,
    Operation.equality_equal_iff ha hb⟩
  intro hab hbc
  have hxy := (Operation.equality_equal_iff ha hb).1 hab
  have hyz := (Operation.equality_equal_iff hb hc).1 hbc
  exact (Operation.equality_equal_iff ha hc).2 (hxy.trans hyz)

/-- The integer 2 and the fraction 2/1, in lists of lists. -/
theorem equality_equivalence_two :
    let two : Fraction := ⟨2, 1, by decide⟩
    let data (n : Number) : Value := .list [.string "a", .list [.number n, .nil]]
    let datum (q : ℚ) : Datum := .list [.string "a", .list [.number q, .nil]]
    let equal := Operation.equality .initial .equal
    (data (.integer 2)).Denotes (datum (2 : Int64).toInt) ∧
      (data (.fraction two)).Denotes (datum two.value) ∧
      equal (data (.integer 2)) (data (.fraction two)) = .ok (.boolean true) ∧
      equal (data (.fraction two)) (data (.integer 2)) = .ok (.boolean true) := by
  intro two data datum equal
  have hdenotes {whole q n} (h : Number.Stands whole q n) : (data n).Denotes (datum q) :=
    .list (.cons (.string "a") (.cons (.list (.cons (.number h) (.cons .nil .nil))) .nil))
  have ha := hdenotes (.integer 2)
  have hb := hdenotes (.fraction (a := two) (by decide))
  have hvalue : two.value = (2 : Int64).toInt := Fraction.value_ofInteger 2
  obtain ⟨-, -, -, hab⟩ := equality_equivalence .initial ha hb ha
  obtain ⟨-, -, -, hba⟩ := equality_equivalence .initial hb ha hb
  exact ⟨ha, hb, hab.2 (congrArg datum hvalue.symm), hba.2 (congrArg datum hvalue)⟩

/-- A difference hides what could not be compared behind it. -/
example :
    let equal := Operation.equality .initial .equal
    equal (.list [.integer 1, .boolean true]) (.list [.integer 2, .string "a"]) =
        .ok (.boolean false) ∧
      equal (.list [.integer 1, .boolean true]) (.list [.integer 1, .string "a"]) =
        .error (.incomparable .boolean .string) :=
  ⟨rfl, rfl⟩

end Linewise
