import Linewise.Registry

/-!
# Memory

The variables, functions and blocks of a run, each at a place that never
changes. A variable that holds another variable is a reference to it, and may
be part of a chain of references.

Chains are followed at most `maxChain` variables far. What is taken out of
lists that hold variables, that hold lists, and so on, is followed through as
many variables as there are, which is enough unless a variable comes back to
itself.

* `held`: the value of a variable, one level deep;
* `dereference`: the value at the end of a chain;
* `flatten`: a value as arguments of a call, without lists among them;
* `text`: a value as it is printed.
-/

namespace Linewise

structure Variable where
  name : String
  value : Value

structure Memory where
  vars : Array Variable
  registry : Registry
  blocks : Array Block

namespace Memory

/-- The longest chain of references that is followed. -/
def maxChain : Nat := 256

/-- The memory of a program that has not started. -/
def initial : Memory where
  vars := #[]
  registry := .standard
  blocks := #[]

variable (m : Memory)

def get? (r : VarRef) : Option Variable :=
  m.vars[r.index]?

/-- The value of the variable at a place. -/
def read (r : VarRef) : Value :=
  (m.get? r).elim .nil (·.value)

/-- The name of the variable at a place. -/
def nameOf (r : VarRef) : String :=
  (m.get? r).elim "" (·.name)

/-- The name of the function at a place. -/
def functionName (f : FunctionRef) : String :=
  (m.registry.get? f).elim "" (·.name)

/-- A new variable. -/
def addVariable (v : Variable) : VarRef × Memory :=
  (⟨m.vars.size⟩, { m with vars := m.vars.push v })

/-- A new value for the variable at a place. -/
def write (r : VarRef) (value : Value) : Memory :=
  { m with vars := m.vars.modify r.index fun v => { v with value } }

/-- A new block. -/
def addBlock (b : Block) : BlockRef × Memory :=
  (⟨m.blocks.size⟩, { m with blocks := m.blocks.push b })

/-- What a variable holds, one level deep; any other value is itself. -/
def held : Value → Value
  | .var r => m.read r
  | v => v

/-- The first value on a chain of references that is no variable, if it comes
    after fewer than the given number of them. -/
def follow : Nat → Value → Except Fault Value
  | 0, _ => .error .endlessReference
  | n + 1, .var r => follow n (m.read r)
  | _ + 1, v => .ok v

/-- The value at the end of a chain of references. -/
def dereference (v : Value) : Except Fault Value :=
  m.follow maxChain v

/-- The boolean at the end of a chain of references. -/
def boolean (v : Value) : Except Fault Bool := do
  match ← m.dereference v with
  | .boolean b => return b
  | v => throw (.notBoolean v.datatype)

/-- The string at the end of a chain of references. -/
def string (v : Value) : Except Fault String := do
  match ← m.dereference v with
  | .string s => return s
  | v => throw (.notString v.datatype)

/-- The function that a value is, or that it holds. -/
def function? (v : Value) : Option FunctionRef :=
  match m.held v with
  | .function f => some f
  | _ => none

/-- The block that a value is, or that it holds. -/
def block? (v : Value) : Option BlockRef :=
  match m.held v with
  | .block b => some b
  | _ => none

/-- What a variable comes to among arguments: what it holds, and what is in
    there if that is a list. The number bounds the variables on the way; lists
    that are further away are left out. -/
def contents : Nat → VarRef → List Value
  | 0, _ => []
  | n + 1, r =>
    match m.read r with
    | .list values => Value.flattenAllWith (contents n) values
    | v => [v]

/-- A value as arguments: variables are passed by what they hold, and lists by
    their elements. -/
def flatten (v : Value) : List Value :=
  v.flattenWith (m.contents m.vars.size)

/-- The arguments that a value stands for: a list already is one of arguments,
    and is taken as it is. -/
def arguments : Value → List Value
  | .list values => values
  | v => m.flatten v

/-- The text of a variable: its name, and what it holds or refers to. The
    number bounds the variables on the way. -/
def variableText : Nat → VarRef → String
  | 0, r => m.nameOf r
  | n + 1, r =>
    let value := m.read r
    let arrow :=
      match value with
      | .var _ => " => "
      | _ => " = "
    m.nameOf r ++ arrow ++ value.textWith (variableText n) m.functionName

/-- The text of a value. -/
def text (v : Value) : String :=
  v.textWith (m.variableText m.vars.size) m.functionName

/-- The texts of some values, between commas. -/
def textOfList (values : List Value) : String :=
  m.text (.list values)

/-- Only variables are followed. -/
theorem follow_succ_of_ne_var (n : Nat) {v : Value} (hv : ∀ r, v ≠ .var r) :
    m.follow (n + 1) v = .ok v := by
  cases v with
  | var r => exact absurd rfl (hv r)
  | _ => rfl

theorem eq_of_follow {n : Nat} {v w : Value} (hv : ∀ r, v ≠ .var r)
    (h : m.follow n v = .ok w) : w = v := by
  cases n with
  | zero => cases h
  | succ n => exact (Except.ok.inj ((m.follow_succ_of_ne_var n hv).symm.trans h)).symm

theorem get?_addVariable (v : Variable) (r : VarRef) :
    (m.addVariable v).2.get? r = if r.index = m.vars.size then some v else m.get? r :=
  Array.getElem?_push

theorem get?_write (r s : VarRef) (value : Value) :
    (m.write r value).get? s =
      if r.index = s.index then (m.get? s).map fun v => { v with value } else m.get? s :=
  Array.getElem?_modify

/-- The variable keeps its name. -/
theorem get?_write_self (r : VarRef) (value : Value) :
    (m.write r value).get? r = (m.get? r).map fun v => { v with value } := by
  rw [get?_write, if_pos rfl]

theorem get?_write_of_ne {r s : VarRef} (h : s ≠ r) (value : Value) :
    (m.write r value).get? s = m.get? s := by
  rw [get?_write, if_neg fun heq => h (congrArg VarRef.mk heq.symm)]

end Memory

end Linewise
