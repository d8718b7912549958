import Linewise.Scope

/-!
# Expressions

An expression is a row of terms: symbols, some of which are operators, and
values. It is evaluated in passes, each of which replaces parts of the row by
their values, until a single term is left (`value`):

1. terms between bars, by their magnitudes (`moduli`);
2. `-` without a left operand, and the term it applies to, from right to left
   (`negations`);
3. operators with their two operands, level by level, and from left to right
   within a level (`level`).

A symbol gets its value from the scope when it becomes an operand. Nothing here
changes the scope, and both operands of an operator are always evaluated.
-/

namespace Linewise

/-- A term of a row. `γ` is what is not evaluated yet. -/
inductive Term (γ : Type) where
  | symbol (s : String)
  | value (v : Value)
  | group (g : γ)

/-- The term is the symbol `s`. -/
def Term.isSymbol {γ : Type} (t : Term γ) (s : String) : Bool :=
  match t with
  | symbol s' => s' == s
  | _ => false

/-- The operator that the term is. -/
def Term.operator? {γ : Type} : Term γ → Option Operator
  | symbol s => Operator.ofSymbol? s
  | _ => none

/-- The terms of an expression all of whose groups have been evaluated. -/
abbrev Row := List (Term Empty)

namespace Scope

variable (s : Scope)

/-- The value of a term on its own. -/
def resolve : Term Empty → Except Fault Value
  | .symbol symbol => s.lookup symbol
  | .value v => .ok v

/-- The row with each term between bars replaced by its magnitude. -/
def moduli : Row → Except Fault Row
  | [] => .ok []
  | t :: row =>
    if t.isSymbol "|" then
      match row with
      | x :: bar :: row =>
        if bar.isSymbol "|" then do
          let v ← Operation.modulus s.memory (← s.resolve x)
          return .value v :: (← moduli row)
        else .error .modulusNotClosed
      | _ => .error .modulusNotClosed
    else do return t :: (← moduli row)

/-- The row with each `-` that has no left operand applied to the term after it,
    given whether what comes before the row can be a left operand. -/
def negationsAfter (operand : Bool) : Row → Except Fault Row
  | [] => .ok []
  | t :: row => do
    let row ← negationsAfter t.operator?.isNone row
    if t.isSymbol "-" && !operand then
      match row with
      | [] => throw (.danglingOperator "-")
      | x :: row =>
        let v ← Operation.negate s.memory (← s.resolve x)
        return .value v :: row
    else return t :: row

/-- The row with each `-` that has no left operand applied to the term after
    it. -/
def negations (row : Row) : Except Fault Row :=
  s.negationsAfter false row

/-- The operator that a term is, if it is one of a level. -/
def operatorOf? (level : Nat) (t : Term Empty) : Option Operator :=
  t.operator?.filter (·.level == level)

/-- The row of a term, which is no operator of the level, and those after it,
    with the operators of the level applied. -/
def levelFrom (level : Nat) (left : Term Empty) : Row → Except Fault Row
  | [] => .ok [left]
  | t :: row =>
    match operatorOf? level t with
    | none => do return left :: (← levelFrom level t row)
    | some op =>
      match row with
      | [] => .error (.danglingOperator op.symbol)
      | right :: row => do
        let a ← s.resolve left
        let b ← s.resolve right
        levelFrom level (.value (← Operation.apply s.memory op a b)) row

/-- The row with the operators of a level applied, from left to right. -/
def level (level : Nat) : Row → Except Fault Row
  | [] => .ok []
  | t :: row =>
    match operatorOf? level t with
    | some op => .error (.danglingOperator op.symbol)
    | none => s.levelFrom level t row

/-- The row with all operators applied. -/
def operators (row : Row) : Except Fault Row :=
  (List.range Operator.levels).foldlM (fun row n => s.level n row) row

/-- The value of a row. -/
def value (row : Row) : Except Fault Value := do
  let row ← s.moduli row
  let row ← s.negations row
  match ← s.operators row with
  | [] => return .nil
  | [t] => s.resolve t
  | _ => throw .incompleteStatement

/-- A value on its own is its value, in any scope. -/
theorem value_singleton (v : Value) : s.value [.value v] = .ok v := rfl

end Scope

end Linewise
