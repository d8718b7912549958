import Linewise.Reference

/-!
# Calls

A function is called with the arguments that a value stands for. The functions
of the standard library do their work in the frame of the caller (`native`). A
function of the program gets a frame of its own, and its body is evaluated one
call deeper; afterwards the frame is left, unless `exit` has left it already.
What a call gives is never a variable that the function holds but its value.

A block is run statement by statement (`runBlock`), in the frame where it is
called. It stops early when the program ends, at `break`, and when `exit` has
left the frame.

All of this is given the evaluation of groups, which in turn needs calls. The
number of statements of a block bounds how often the next one can be taken:
the evaluation may take some of them as the body of a construct, but never put
any back.
-/

namespace Linewise

/-- What can be called. -/
inductive Callable where
  | function (f : FunctionRef)
  | block (b : BlockRef)

/-- What a value is or holds, if that can be called. -/
def Memory.callable? (m : Memory) (v : Value) : Option Callable :=
  ((m.function? v).map .function).or ((m.block? v).map .block)

namespace Call

variable (evaluate : Group → Run Value)

/-- The value of a line. -/
def evaluateLine (line : String) : Run Value := do
  let line := Text.trim line
  if line.isEmpty then return .nil
  else evaluate (← Run.ofExcept (Group.ofLine line))

theorem evaluateLine_of_ofLine {line : String} {item : Item} {g : Group}
    (hline : Group.ofLine (Text.trim line) = .ok (item :: g)) :
    evaluateLine evaluate line = evaluate (item :: g) := by
  have hempty : ¬(Text.trim line).isEmpty = true := by
    intro hempty
    rw [String.isEmpty_iff.1 hempty] at hline
    cases hline
  unfold evaluateLine
  dsimp only
  rw [if_neg hempty, hline]
  rfl

theorem evaluateLine_of_ofLine_nil {line : String}
    (hline : Group.ofLine (Text.trim line) = .ok []) :
    evaluateLine evaluate line = pure .nil ∨ evaluateLine evaluate line = evaluate [] := by
  unfold evaluateLine
  dsimp only
  split
  · exact .inl rfl
  · rw [hline]
    exact .inr rfl

/-! ## Blocks -/

/-- The statements left of the innermost running block, one after the other. The
    number bounds how many there are, `level` is that of the frame in which the
    block runs, and `last` is the value of the statement before. -/
def replay (level : Nat) : Nat → Value → Run Value
  | 0, last => return last
  | n + 1, last => do
    if !(← get).alive then return last
    else
      match ← Run.advance with
      | none => return last
      | some statement =>
        let v ← evaluateLine evaluate statement
        if (← get).frames.level < level || v.isLoopExit then return v
        else replay level n v

/-- The value of the last statement that was run of a branch of a block. -/
def runBlock (b : Block) (first : Bool) : Run Value := do
  let statements ← Run.ofExcept (b.branch first)
  let level := (← get).frames.level
  Run.withCursor statements (replay evaluate level statements.length .nil)

/-! ## Functions -/

/-- The line that `print` writes: strings without their quotes, and the texts
    of all other values. -/
def printed (m : Memory) (args : List Value) : String :=
  String.join <| args.map fun
    | .string s => s
    | v => m.text v

/-- The upper bound given to `random`. -/
def upperBound (m : Memory) (v : Value) : Except Fault Int64 := do
  match ← m.dereference v with
  | .number n =>
    let bound ← n.toInteger
    if 0 < bound then return bound else throw (.boundNotPositive bound)
  | _ => throw (.boundNotNumber v.datatype)

/-- The value of a call of a function of the standard library. -/
def native (b : Builtin) (args : List Value) : Run Value := do
  let arg := args.headD .nil
  match b with
  | .print =>
    Run.write (printed (← get).memory args)
    return .nil
  | .read => evaluateLine evaluate (← Run.readInput)
  | .readString => return .string (← Run.readInput)
  | .random => Run.draw (← Run.reading fun m => upperBound m.memory arg)
  | .load =>
    let path ← Run.reading fun m => m.memory.string arg
    match (← get).files path with
    | .ok source =>
      modify fun m => m.pushSource source
      return .nil
    | .error reason => Run.fail (.cannotLoad path reason)
  | .exit =>
    modify Machine.exitFrame
    return arg

/-- The value of a call of a function. -/
def function (f : FunctionRef) (arg : Value) : Run Value := do
  match (← get).memory.registry.get? f with
  | none => return .nil
  | some f =>
    let bindings ← Run.reading fun m => f.bind (m.memory.arguments arg)
    Run.held <|
      match f.body with
      | .native b => native evaluate b (bindings.map (·.2))
      | .line g => Run.withFrame bindings (Run.nested (evaluate g))
      | .block b => Run.withFrame bindings (Run.nested (runBlock evaluate b true))

/-- The value of a call of a block, which takes no notice of its argument. -/
def block (b : BlockRef) : Run Value := do
  match (← get).memory.blocks[b.index]? with
  | none => return .nil
  | some b => Run.nested (runBlock evaluate b true)

/-- The value of a call. -/
def apply (c : Callable) (arg : Value) : Run Value :=
  match c with
  | .function f => function evaluate f arg
  | .block b => block evaluate b

end Call

end Linewise
