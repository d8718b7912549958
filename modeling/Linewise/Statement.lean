import Linewise.Assignment

/-!
# Statements

A group is a statement if it starts with a keyword, and an expression
otherwise (`statement`). An expression is evaluated in three steps: its groups
and calls from left to right (`applied`), then the references, then everything
else, which no longer depends on anything but the scope (`Scope.value`).

Statements and expressions occur in each other at any depth, and calls in
expressions, so `statement` is given the evaluation of groups and the calls, and
`evaluate` gives it itself and what it calls. A program need not end: the number
given to `evaluate` bounds how deep evaluations are nested and how often a loop
is repeated, and an evaluation that takes more is out of fuel.
-/

namespace Linewise

namespace Statement

/-- The parts of a group before and after its first `,`. -/
def splitAtComma (g : Group) : Option (Group × Group) :=
  match g.span fun item => !item.isSymbol "," with
  | (_, []) => none
  | (condition, _ :: body) => some (condition, body)

/-- The condition and the body of what follows `if` or `while`. -/
def conditionAndBody (k : Keyword) (g : Group) : Except Fault (Group × Group) :=
  if g.isEmpty then .error (.missingCondition k)
  else
    match splitAtComma g with
    | none => .error (.missingComma k)
    | some parts => .ok parts

variable (evaluate : Group → Run Value) (call : Callable → Value → Run Value)

/-! ## Expressions -/

/-- The term that an item stands for, its groups evaluated. -/
def term : Item → Run (Term Empty)
  | .symbol s => return .symbol s
  | .text s => return .value (.string s)
  | .group g => return .value (← evaluate g)

/-- What a term before a value calls: a name or a value may be something that
    can be called. -/
def callable? (m : Machine) : Term Empty → Option Callable
  | .symbol s => if Symbol.isName s then (m.find? s).bind m.memory.callable? else none
  | .value v => m.memory.callable? v

/-- The row of some items, with what can be called applied to the value after
    it; `done` are the terms before them, last first. What a call gives may be
    called again. -/
def applied (done : Row) : Group → Run Row
  | [] => return done.reverse
  | item :: g => do
    let t ← term evaluate item
    match done, t with
    | f :: done', .value arg =>
      match callable? (← get) f with
      | some c => applied (.value (← call c arg) :: done') g
      | none => applied (t :: done) g
    | done, t => applied (t :: done) g

/-- The value of an expression. -/
def expression (g : Group) : Run Value := do
  let row ← applied evaluate call [] g
  let row ← Reference.reduce (fun t => Run.reading fun m => m.resolve t) row
  Run.reading fun m => m.value row

/-! ## Control -/

/-- The value of a group, which may be missing. -/
def optional (g : Group) : Run Value :=
  if g.isEmpty then return .nil else evaluate g

/-- The boolean that a condition comes to. -/
def condition (g : Group) : Run Bool := do
  let v ← evaluate g
  match ← Run.reading fun m => m.memory.dereference v with
  | .boolean b => return b
  | _ => Run.fail .conditionNotBoolean

/-- What follows `#`: `STRICT` and a condition. -/
def directive (g : Group) : Run Value := do
  let name := (g.head?.bind Item.symbol?).getD ""
  if name ≠ "STRICT" then Run.fail (.unknownDirective name)
  else if g.tail.isEmpty then Run.fail .directiveWithoutParameter
  else
    let v ← evaluate g.tail
    match ← Run.reading fun m => m.memory.dereference v with
    | .boolean strict =>
      modify fun m => { m with strict }
      Run.write
        (if strict then "Interpreter running in strict mode"
          else "Interpreter not running in strict mode")
      return .nil
    | _ => Run.fail .directiveParameter

/-- What follows `if`: a condition, and a body on the line or in the block that
    follows. A body on the line may have an `else`, and if nothing comes after
    that, the second branch is the block that follows. -/
def conditional (g : Group) : Run Value := do
  let (test, body) ← Run.ofExcept (conditionAndBody .conditional g)
  let holds ← condition evaluate test
  if body.isEmpty then
    let b ← Run.captureBlock true
    if holds then Call.runBlock evaluate b true
    else if b.hasElse then Call.runBlock evaluate b false
    else return .boolean false
  else
    match body.span fun item => !item.isElse with
    | (first, []) => if holds then evaluate first else return .nil
    | (first, [_]) =>
      let b ← Run.captureBlock false
      if holds then optional evaluate first else Call.runBlock evaluate b true
    | (first, _ :: second) => optional evaluate (if holds then first else second)

/-- The repetition of a body while a condition holds, at most the given number
    of times. It ends at `break`, and when `exit` has left the frame, of the
    given level, in which it started. -/
def loop (test : Group) (body : Run Value) (level : Nat) : Nat → Run Value
  | 0 => throw .outOfFuel
  | n + 1 => do
    if !(← get).alive then return .nil
    else if ← condition evaluate test then
      let v ← body
      if (← get).frames.level < level then return v
      else if v.isLoopExit then return .nil
      else loop test body level n
    else return .nil

/-- What follows `while`: a condition, and a body on the line or in the block
    that follows. -/
def repetition (fuel : Nat) (g : Group) : Run Value := do
  let (test, body) ← Run.ofExcept (conditionAndBody .repetition g)
  let body ←
    if body.isEmpty then (Call.runBlock evaluate · true) <$> Run.captureBlock false
    else pure (evaluate body)
  loop evaluate test body (← get).frames.level fuel

/-- What follows `begin`: nothing, on its line. The value is the block that
    follows. -/
def opening (g : Group) : Run Value := do
  if !g.isEmpty then Run.fail .textAfterBegin
  else
    let b ← Run.captureBlock false
    modifyGet fun m =>
      let (r, memory) := m.memory.addBlock b
      (.block r, { m with memory })

/-- The value of a group. -/
def statement (fuel : Nat) (g : Group) : Run Value :=
  match g, g.keyword? with
  | [], _ => return .list []
  | g, none => expression evaluate call g
  | _ :: g, some .directive => directive evaluate g
  | _ :: g, some .assignment => Assignment.run evaluate Assignment.overwrite g
  | _ :: g, some .conditional => conditional evaluate g
  | _ :: g, some .repetition => repetition evaluate fuel g
  | _ :: g, some .opening => opening g
  | _, some .reserved => Run.fail .reservedKeyword
  | _, some k => Run.fail (.unexpectedKeyword k)

end Statement

/-- The value of a group, unless the number is too small for it. -/
def evaluate : Nat → Group → Run Value
  | 0, _ => throw .outOfFuel
  | fuel + 1, g =>
    Statement.statement (evaluate fuel) (Call.apply (evaluate fuel)) fuel g

end Linewise
