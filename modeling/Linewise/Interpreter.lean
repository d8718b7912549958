import Linewise.Statement

/-!
# The interpreter

A program is a sequence of statements on lines of their own, taken from the
sources one after the other (`readStatement`). A statement that fails gives an
exception instead of a value (`interpret`), and the program goes on with the
next one; in strict mode it ends there.

`trace` follows a program statement by statement to its end.
-/

namespace Linewise

/-- What a statement gives. -/
abbrev Result := Except Exception Value

namespace Interpreter

/-- The exception that a fault becomes when it leaves a statement. -/
def exception (m : Machine) (f : Fault) : Exception where
  fault := f
  fatal := m.strict
  line := m.line

/-- The machine after a fault has left a statement. -/
def afterFault (m : Machine) : Machine :=
  if m.strict then m.kill else m

/-- What the statement on a line gives. -/
def interpret (fuel : Nat) (line : String) : Run Result := fun m =>
  match Call.evaluateLine (evaluate fuel) line m with
  | .ok v m => .ok (.ok v) m
  | .error (.fault f) m => .ok (.error (exception m f)) (afterFault m)
  | .error .outOfFuel m => .error .outOfFuel m

theorem evaluateLine_of_interpret {fuel : Nat} {line : String} {m m' : Machine} {v : Value}
    (h : interpret fuel line m = .ok (.ok v) m') :
    Call.evaluateLine (evaluate fuel) line m = .ok v m' := by
  rw [interpret] at h
  split at h
  · rename_i hrun
    cases h
    exact hrun
  · cases h
  · cases h

/-- A fault ends the statement on a line. -/
theorem interpret_of_fault {fuel : Nat} {line : String} {item : Item} {g : Group} {m m' : Machine}
    {f : Fault} (hline : Group.ofLine (Text.trim line) = .ok (item :: g))
    (h : evaluate fuel (item :: g) m = .error (.fault f) m') :
    interpret fuel line m = .ok (.error (exception m' f)) (afterFault m') := by
  rw [interpret, Call.evaluateLine_of_ofLine _ hline, h]

/-- The text of what a statement gave. -/
def textOf (m : Machine) : Result → String
  | .ok v => m.memory.text v
  | .error e => e.text

/-- The innermost source with lines left, or the outermost one if there is none,
    and the sources below it. -/
def withoutFinished : Source → List Source → Source × List Source
  | .script [], s :: suspended => withoutFinished s suspended
  | s, suspended => (s, suspended)

/-- The next line that starts a statement. A source that is used up gives way to
    the one that loaded it. -/
def readStatement : Run (Option String) := do
  modify fun m =>
    let (source, suspended) := withoutFinished m.source m.suspended
    { m with source, suspended }
  Run.readLine

/-- A statement of a program. -/
structure Step where
  /-- The machine that has read the line of the statement. -/
  before : Machine
  result : Result
  after : Machine

/-- The lines that a statement wrote. -/
def Step.output (s : Step) : Array String :=
  s.after.output.extract s.before.output.size

/-- How a program ends. -/
inductive Ending where
  /-- There is no line left, or the last statement ended the program. -/
  | finished
  /-- A line cannot be read. -/
  | failed (f : Fault)
  | outOfFuel

/-- The statements of a program, as many as the number says, and its end. -/
def trace (fuel : Nat) : Nat → Machine → List Step × Ending
  | 0, _ => ([], .outOfFuel)
  | n + 1, m =>
    match readStatement m with
    | .ok none _ => ([], .finished)
    | .ok (some line) before =>
      match interpret fuel line before with
      | .ok result after =>
        let (steps, ending) := if after.alive then trace fuel n after else ([], .finished)
        (⟨before, result, after⟩ :: steps, ending)
      | .error _ _ => ([], .outOfFuel)
    | .error (.fault f) _ => ([], .failed f)
    | .error .outOfFuel _ => ([], .outOfFuel)

end Interpreter

end Linewise
