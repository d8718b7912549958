import Linewise.Call

/-!
# Assignments

`let` has a head, up to the first `=`, and a right-hand side after it. The head
names a target: a variable, or a function to be defined if parameters in
brackets follow the target.

* `let x = e` gives `x` the value of `e`, in place of the one it has or as a new
  variable of the frame on top. Variables are assigned by value, so `e` only
  becomes a reference where `@` says so.
* `let ~r = e` gives the variable that `r` refers to a value.
* `let f(x, y) = e` defines a function, with the body `e`, or with the block
  that follows if there is nothing after the `=`.

An assignment that would make a chain of references come back to its start is
refused (`checkReference`).
-/

namespace Linewise

/-- What is assigned to. -/
inductive Target where
  | name (s : String)
  | variable (r : VarRef)

/-- A chain of references from `r` on does not meet `target`, and ends within
    the given number of variables. -/
def Memory.checkChain (m : Memory) (target : VarRef) : Nat → VarRef → Except Fault Unit
  | 0, _ => .error .longReference
  | n + 1, r =>
    if r = target then .error .circularReference
    else
      match m.read r with
      | .var s => checkChain m target n s
      | _ => .ok ()

/-- `target` may be given the value `v`. -/
def Memory.checkReference (m : Memory) (target : VarRef) (v : Value) : Except Fault Unit :=
  match v with
  | .var r =>
    if r = target then .error .selfReference else m.checkChain target Memory.maxChain r
  | _ => .ok ()

namespace Assignment

/-- The names in a list of parameters: names with commas between them. -/
def parameterNames : Group → Except Fault (List String)
  | [] => .ok []
  | [item] => do return [← name item]
  | item :: comma :: rest => do
    let first ← name item
    if !comma.isSymbol "," then throw .invalidParameter
    else if rest.isEmpty then throw .missingParameter
    else return first :: (← parameterNames rest)
where
  /-- The name of a parameter. -/
  name (item : Item) : Except Fault String :=
    match item.symbol? with
    | some s => if Symbol.isName s then .ok s else .error .invalidParameter
    | none => .error .invalidParameter

/-- What a value can be assigned to: a variable, or the name of a function. -/
def targetOfValue (m : Memory) : Value → Except Fault Target
  | .var r => .ok (.variable r)
  | .function f => .ok (.name (m.functionName f))
  | _ => .error .invalidTarget

/-- The term of a head that an item stands for. -/
def headTerm : Item → Term Group
  | .symbol s => .symbol s
  | .text s => .value (.string s)
  | .group g => .group g

/-- A new value for a variable. -/
def overwrite (r : VarRef) (v : Value) : Run Value := do
  Run.reading fun m => m.memory.checkReference r v
  modify fun m => { m with memory := m.memory.write r v }
  return .var r

section

variable (evaluate : Group → Run Value) (give : VarRef → Value → Run Value)

/-- The value of a term of a head on its own. -/
def resolve : Term Group → Run Value
  | .symbol s => Run.reading fun m => m.lookup s
  | .value v => return v
  | .group g => evaluate g

/-- What the first term of a head stands for. -/
def target : Term Group → Run Target
  | .symbol s => if Symbol.isName s then return .name s else Run.fail .invalidTarget
  | .value v => Run.reading fun m => targetOfValue m.memory v
  | .group g => do
    let v ← evaluate g
    Run.reading fun m => targetOfValue m.memory v

/-- The name of the function that a target names. -/
def functionName (m : Memory) : Target → String
  | .name s => s
  | .variable r => m.nameOf r

/-- The definition of a function. Its body is on the line, or in the block that
    follows. -/
def define (target : Target) (parameters body : Group) : Run Value := do
  let name := functionName (← get).memory target
  let names ← Run.ofExcept (parameterNames parameters)
  let body ← if body.isEmpty then Body.block <$> Run.captureBlock false else pure (.line body)
  return .function (← Run.define (.ofBody name names body))

/-- The assignment of the value of `body`; `give` gives it to a variable that
    there is already. -/
def assign (target : Target) (body : Group) : Run Value := do
  let v ← Run.held (evaluate body)
  match target with
  | .variable r => give r v
  | .name s =>
    match (← get).frames.find? s with
    | some r => give r v
    | none => modifyGet fun m =>
      let (r, m) := m.declare s v
      (.var r, m)

/-- The value of what follows `let`: the variable or the function. -/
def run (g : Group) : Run Value := do
  let (head, rest) := g.span fun item => !item.isSymbol "="
  match head, rest with
  | _, [] => Run.fail .missingEquals
  | [], _ => Run.fail .missingTarget
  | head, _ :: body =>
    match ← Reference.reduce (resolve evaluate) (head.map headTerm) with
    | [] => Run.fail .missingTarget
    | t :: rest =>
      let target ← target evaluate t
      match rest with
      | [] => if body.isEmpty then Run.fail .missingValue else assign evaluate give target body
      | [.group parameters] => define target parameters body
      | .group parameters :: _ => do
        let _ ← Run.ofExcept (parameterNames parameters)
        Run.fail .missingBody
      | _ => Run.fail .missingValue

end

end Assignment

end Linewise
