import Linewise.Proofs.Coupling

/-!
# The passes of an expression

What the passes do to a row from its front: the groups and calls (`Statement.applied`), the
references (`Reference.reduce`), bars, `-`, and the operators of a level. A row with nothing in
it for a pass comes out of the pass as it was.
-/

namespace Linewise

/-! ## Groups and references -/

namespace Statement

variable {ev : Group → Run Value} {call : Callable → Value → Run Value} {done : Row}

theorem applied_symbol {g : Group} {m : Machine} (s : String) :
    applied ev call done (.symbol s :: g) m = applied ev call (.symbol s :: done) g m := by
  cases done <;> rfl

/-- After a term that cannot be called, an item is only evaluated. -/
theorem applied_cons (hdone : ∀ f ∈ done.head?, ∀ m, callable? m f = none) (item : Item)
    (g : Group) :
    applied ev call done (item :: g) = term ev item >>= fun t => applied ev call (t :: done) g := by
  cases done with
  | nil => rfl
  | cons f done =>
    rw [applied]
    congr 1
    funext t
    cases t with
    | value arg =>
      funext m
      exact Run.bind_of_ok (m := m) rfl |>.trans (by rw [hdone f rfl])
    | _ => rfl

/-- A name that can be called, and its argument in brackets. -/
theorem expression_call {s : String} {g : Group} {c : Callable} {x v : Value} {m m₁ m₂ : Machine}
    (hg : ev g m = .ok x m₁) (hc : callable? m₁ (.symbol s) = some c)
    (hcall : call c x m₁ = .ok v m₂) : expression ev call [.symbol s, .group g] m = .ok v m₂ := by
  have hget : (get : Run Machine) m₁ = .ok m₁ m₁ := rfl
  have hterm : term ev (.group g) m = .ok (.value x) m₁ := Run.bind_of_ok hg
  have hrow : applied ev call [] [.symbol s, .group g] m = .ok [.value v] m₂ := by
    rw [applied_symbol, applied, Run.bind_of_ok hterm]
    dsimp only
    rw [Run.bind_of_ok hget, hc]
    dsimp only
    rw [Run.bind_of_ok hcall]
    rfl
  rw [expression, Run.bind_of_ok hrow]
  rfl

/-- What is neither empty nor starts with a keyword is an expression. -/
theorem statement_eq_expression {fuel : Nat} {g : Group} (hne : g ≠ [])
    (hg : g.keyword? = none) : statement ev call fuel g = expression ev call g := by
  cases g with
  | nil => exact absurd rfl hne
  | cons item g => simp only [statement, hg]

end Statement

/-- A row without `@` and `~` stays as it is. -/
theorem Reference.reduce_eq_self {γ : Type} {resolve : Term γ → Run Value} {row : List (Term γ)}
    (h : ∀ t ∈ row, ofTerm? t = none) (m : Machine) : reduce resolve row m = .ok row m := by
  induction row with
  | nil => rfl
  | cons t row ih =>
    rw [List.forall_mem_cons] at h
    rw [reduce, Run.bind_of_ok (ih h.2), h.1]
    rfl

/-! ## Bars, signs and operators -/

namespace Scope

variable {s : Scope} {row rest : Row} {t left : Term Empty} {l : Nat}

theorem moduli_cons (ht : t.isSymbol "|" = false) :
    s.moduli (t :: row) = (t :: ·) <$> s.moduli row := by
  conv => lhs; unfold moduli
  rw [ht]
  cases s.moduli row <;> rfl

/-- A row without bars stays as it is. -/
theorem moduli_eq_self (h : ∀ t ∈ row, t.isSymbol "|" = false) : s.moduli row = .ok row := by
  induction row with
  | nil => rfl
  | cons t row ih =>
    rw [List.forall_mem_cons] at h
    rw [moduli_cons h.1, ih h.2]
    rfl

theorem negationsAfter_cons (ht : t.isSymbol "-" = false) (operand : Bool) :
    s.negationsAfter operand (t :: row) = (t :: ·) <$> s.negationsAfter t.operator?.isNone row := by
  rw [negationsAfter, ht]
  cases s.negationsAfter t.operator?.isNone row <;> rfl

/-- After an operand, `-` is between two operands. -/
theorem negationsAfter_true_cons :
    s.negationsAfter true (t :: row) = (t :: ·) <$> s.negationsAfter t.operator?.isNone row := by
  rw [negationsAfter, Bool.not_true, Bool.and_false]
  cases s.negationsAfter t.operator?.isNone row <;> rfl

/-- The row with `-` applied to the first term. -/
def negateFirst (s : Scope) : Row → Except Fault Row
  | [] => .error (.danglingOperator "-")
  | x :: row => do
    let v ← Operation.negate s.memory (← s.resolve x)
    return .value v :: row

theorem negationsAfter_false_minus :
    s.negationsAfter false (.symbol "-" :: row) = s.negationsAfter false row >>= s.negateFirst := by
  have hminus : (Term.symbol "-" : Term Empty).operator?.isNone = false := by decide
  rw [negationsAfter, hminus]
  cases s.negationsAfter false row with
  | error f => rfl
  | ok row => cases row <;> rfl

theorem negationsAfter_minus {v w : Value} (hrow : s.negationsAfter false row = .ok (t :: rest))
    (ht : s.resolve t = .ok v) (hv : Operation.negate s.memory v = .ok w) :
    s.negationsAfter false (.symbol "-" :: row) = .ok (.value w :: rest) := by
  rw [negationsAfter_false_minus, hrow]
  simp only [negateFirst, Bind.bind, Except.bind, ht, hv]
  rfl

theorem levelFrom_operator_cons {right : Term Empty} {op : Operator}
    (ht : operatorOf? l t = some op) :
    s.levelFrom l left (t :: right :: row) = (do
      let a ← s.resolve left
      let b ← s.resolve right
      s.levelFrom l (.value (← Operation.apply s.memory op a b)) row) := by
  rw [levelFrom, ht]

theorem levelFrom_operator {right : Term Empty} {op : Operator} {a b c : Value}
    (ht : operatorOf? l t = some op) (hleft : s.resolve left = .ok a)
    (hright : s.resolve right = .ok b) (hop : Operation.apply s.memory op a b = .ok c) :
    s.levelFrom l left (t :: right :: row) = s.levelFrom l (.value c) row := by
  rw [levelFrom_operator_cons ht]
  simp only [Bind.bind, Except.bind, hleft, hright, hop]

theorem levelFrom_cons (ht : operatorOf? l t = none) :
    s.levelFrom l left (t :: row) = (left :: ·) <$> s.levelFrom l t row := by
  rw [levelFrom, ht]
  cases s.levelFrom l t row <;> rfl

theorem levelFrom_eq_self (h : ∀ t ∈ row, operatorOf? l t = none) :
    s.levelFrom l left row = .ok (left :: row) := by
  induction row generalizing left with
  | nil => rfl
  | cons t row ih =>
    rw [List.forall_mem_cons] at h
    rw [levelFrom_cons h.1, ih h.2]
    rfl

theorem level_cons (ht : operatorOf? l t = none) : s.level l (t :: row) = s.levelFrom l t row := by
  rw [level, ht]

/-- What is left of the level behind a term, unless that is an operator. -/
theorem levelFrom_eq_level (h : ∀ t ∈ row.head?, operatorOf? l t = none) :
    s.levelFrom l left row = (left :: ·) <$> s.level l row := by
  cases row with
  | nil => rfl
  | cons t row => rw [levelFrom_cons (h t rfl), level_cons (h t rfl)]

/-- A row without operators of a level stays as it is. -/
theorem level_eq_self (h : ∀ t ∈ row, operatorOf? l t = none) : s.level l row = .ok row := by
  cases row with
  | nil => rfl
  | cons t row =>
    rw [List.forall_mem_cons] at h
    rw [level_cons h.1]
    exact levelFrom_eq_self h.2

theorem operatorOf?_of_operator? (h : t.operator? = none) : operatorOf? l t = none := by
  rw [operatorOf?, h]
  rfl

end Scope

end Linewise
