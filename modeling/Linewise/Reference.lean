import Linewise.Machine

/-!
# References

`@` before a variable makes a reference to it, and `~` before a reference goes
back to what it refers to. Both apply to the term after them, and of several in
a row the rightmost comes first.

A reference is a variable without a name that a program could use. It holds the
variable referred to. `~` takes a variable for what it holds, which must be a
variable again, or a function.
-/

namespace Linewise

/-- The symbols before a term that make and follow references. -/
inductive Reference where
  | make
  | follow
deriving DecidableEq, Repr

namespace Reference

def symbol : Reference → String
  | make => "@"
  | follow => "~"

def ofSymbol? (s : String) : Option Reference :=
  if s = "@" then some make else if s = "~" then some follow else none

/-- The symbol that the term is, if it is one of these. -/
def ofTerm? {γ : Type} : Term γ → Option Reference
  | .symbol s => ofSymbol? s
  | _ => none

theorem ofSymbol?_eq_some_iff {s : String} {r : Reference} :
    ofSymbol? s = some r ↔ r.symbol = s := by
  unfold ofSymbol?
  cases r <;> simp only [symbol] <;> split <;> (try split) <;> simp_all [eq_comm]

/-- The name of the variables that are references. -/
def variableName : String := "reference"

/-- A new reference to `v`. -/
def makeTo (v : Value) : Run Value :=
  match v with
  | .var r => modifyGet fun m =>
    let (s, memory) := m.memory.addVariable { name := variableName, value := .var r }
    (.var s, { m with memory })
  | v => Run.fail (.referenceToValue v.datatype)

/-- What `v` refers to. -/
def followFrom (m : Memory) (v : Value) : Except Fault Value :=
  match v with
  | .var r =>
    match m.read r with
    | .var s => .ok (.var s)
    | .function f => .ok (.function f)
    | _ => .error .notReference
  | v => .error (.dereferenceOfValue v.datatype)

/-- What one of the symbols does to the value after it. -/
def apply : Reference → Value → Run Value
  | make, v => makeTo v
  | follow, v => Run.reading fun m => followFrom m.memory v

/-- The row with all references made and followed, from right to left. -/
def reduce {γ : Type} (resolve : Term γ → Run Value) : List (Term γ) → Run (List (Term γ))
  | [] => return []
  | t :: row => do
    let row ← reduce resolve row
    match ofTerm? t, row with
    | none, row => return t :: row
    | some r, [] => Run.fail (.danglingReference r.symbol)
    | some r, x :: row => return .value (← r.apply (← resolve x)) :: row

end Reference

end Linewise
