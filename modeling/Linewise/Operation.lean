import Linewise.Memory

/-!
# Operations

What operators do to values. An operation takes its operands from the ends of
the chains of references that they start; the comma alone takes a variable for
what it holds, so that a list may hold references.

Operations read the memory and never change it. Whether two values are equal
is decided through lists, which may hold variables that hold lists: through as
many variables as there are, which is enough unless a list comes back to itself
(`equal`).
-/

namespace Linewise.Operation

variable (m : Memory)

/-- The number that an operand of the operation called `noun` has to be. -/
def number (noun : String) (v : Value) : Except Fault Number :=
  match v with
  | .number n => .ok n
  | v => .error (.notNumber v.datatype noun)

/-! ## Arithmetic -/

/-- `+`, `-`, `*` and `/`. Strings may only be added, and only to strings. -/
def arithmetic (op : Arithmetic) (a b : Value) : Except Fault Value := do
  match ← m.dereference a, ← m.dereference b with
  | .string s, .string t =>
    if op = .add then return .string (s ++ t) else throw (.stringOperand op)
  | .string _, .number _ => throw (if op = .add then .numberToString else .stringOperand op)
  | .number _, .string _ => throw (if op = .add then .stringToNumber else .stringOperand op)
  | .string _, _ => throw (.stringOperand op)
  | _, .string _ => throw (.stringOperand op)
  | a, b =>
    let a ← number op.noun a
    let b ← number op.noun b
    return .number (← Number.arithmetic op a b)

/-- `^` -/
def power (a b : Value) : Except Fault Value := do
  let a ← number "exponentiation" (← m.dereference a)
  let b ← number "exponentiation" (← m.dereference b)
  return .number (← a.power b)

/-- The magnitude of a value between bars. -/
def modulus (v : Value) : Except Fault Value := do
  let n ← number "modulus" (← m.dereference v)
  return .number (← n.modulus)

/-- `-` without a left operand. -/
def negate (v : Value) : Except Fault Value := do
  match ← m.dereference v with
  | .number n => return .number (← n.negate)
  | v => throw (.notNegatable v.datatype)

/-! ## Comparison -/

/-- `<`, `>`, `<=` and `>=` -/
def compare (op : Comparison) (a b : Value) : Except Fault Value := do
  let noun := "'" ++ op.symbol ++ "'"
  let a ← number noun (← m.dereference a)
  let b ← number noun (← m.dereference b)
  return .boolean (Number.compare op a b)

/-- Two values that are neither variables nor both lists are equal. Nothing is equal
    to `nil` but itself, and values of other types cannot be compared. -/
def equalScalars (approximate : Bool) : Value → Value → Except Fault Bool
  | .number a, .number b => .ok (if approximate then a.alike b else a.equal b)
  | .nil, .nil => .ok true
  | .nil, _ => .ok false
  | _, .nil => .ok false
  | .boolean a, .boolean b => .ok (a == b)
  | .string a, .string b => .ok (a == b)
  | .function a, .function b => .ok (a == b)
  | .block a, .block b => .ok (a == b)
  | a, b => .error (.incomparable a.datatype b.datatype)

section

variable (ofVar : VarRef → Value → Except Fault Bool) (approximate : Bool)

mutual

/-- A value is equal to the one at the end of a chain of references, given how that
    is decided for variables on the left. -/
def equalWith : Value → Value → Except Fault Bool
  | .var r, b => ofVar r b
  | .list as, b => do
    match ← m.dereference b with
    | .list bs => if as.length = bs.length then equalAllWith as bs else return false
    | b => equalScalars approximate (.list as) b
  | a, b => do equalScalars approximate a (← m.dereference b)

/-- Values are equal in every place; the first that differ decide. -/
def equalAllWith : List Value → List Value → Except Fault Bool
  | a :: as, b :: bs => do if ← equalWith a b then equalAllWith as bs else return false
  | _, _ => .ok true

end

end

/-- A variable is equal to a value. Two references are equal if they refer to the same
    variable. The number bounds the variables on the way. -/
def equalVariable (approximate : Bool) : Nat → VarRef → Value → Except Fault Bool
  | 0, _, _ => .error .endlessReference
  | n + 1, r, b =>
    match m.read r, m.held b with
    | .var s, .var t => .ok (s == t)
    | _, _ => do equalWith m (equalVariable approximate n) approximate (← m.dereference (.var r)) b

/-- Two values are equal, or alike as far as they are numbers. -/
def equal (approximate : Bool) (a b : Value) : Except Fault Bool :=
  equalWith m (equalVariable m approximate m.vars.size) approximate a b

/-- `=`, `~=` and `/=` -/
def equality (op : Equality) (a b : Value) : Except Fault Value := do
  match op with
  | .equal => return .boolean (← equal m false a b)
  | .approximate => return .boolean (← equal m true a b)
  | .unequal => return .boolean (!(← equal m false a b))

/-! ## Lists and connectives -/

/-- The comma, which adds the right operand to the list on the left. -/
def enumerate (a b : Value) : Value :=
  .list (m.arguments a ++ m.flatten b)

/-- `and` and `or` -/
def logic (op : Connective) (a b : Value) : Except Fault Value := do
  let a ← m.boolean a
  let b ← m.boolean b
  match op with
  | .both => return .boolean (a && b)
  | .either => return .boolean (a || b)

/-- What an operator does to its operands. -/
def apply : Operator → Value → Value → Except Fault Value
  | .power, a, b => power m a b
  | .arithmetic op, a, b => arithmetic m op a b
  | .equality op, a, b => equality m op a b
  | .comparison op, a, b => compare m op a b
  | .enumerate, a, b => .ok (enumerate m a b)
  | .logic op, a, b => logic m op a b

end Linewise.Operation
