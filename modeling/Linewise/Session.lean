import Linewise.Interpreter

/-!
# Sessions

A session runs a program for a user. It writes the text of each exception, the
value of each statement if the user is to see them, and a last line at the end.
The line `quit` ends it. Of a value that cannot be written, the user is told that.
-/

namespace Linewise

/-- Why a line is said to have failed. -/
inductive Failure where
  /-- Its statement ended with an exception. -/
  | exception (e : Exception)
  /-- The value of its statement could not be written. -/
  | unwritten (f : Fault)
deriving DecidableEq, Repr

/-- The text of a failure. -/
def Failure.text : Failure → String
  | exception e => e.text
  | unwritten f => f.report.text

/-- What the user is told about a line. -/
inductive Reply where
  | done
  /-- The program has ended. -/
  | quit
  | failed (e : Failure)
deriving DecidableEq, Repr

/-- The text of a reply. -/
def Reply.text : Reply → String
  | done => ""
  | quit => "Quit"
  | failed e => e.text

namespace Session

/-- With `echo`, a value is written, unless it is `nil`. -/
def writeValue (echo : Bool) (v : Value) : Run Unit := do
  if echo && !v.isNil then Run.write ("-> " ++ (← get).memory.text v)

/-- The reply to a line. -/
def reply (echo : Bool) (fuel : Nat) (line : String) : Run Reply := do
  if Text.trim line = "quit" then
    modify Machine.kill
    return .quit
  else
    match ← Interpreter.interpret fuel line with
    | .error e => return .failed (.exception e)
    | .ok v =>
      match ← Run.caught (writeValue echo v) with
      | .error f => return .failed (.unwritten f)
      | .ok () => return if (← get).alive then .done else .quit

/-- The reply to the next line that starts a statement, if there is one. -/
def next (echo : Bool) (fuel : Nat) : Run (Option Reply) := do
  match ← Interpreter.readStatement with
  | none => return none
  | some line => some <$> reply echo fuel line

/-- The text of a failure is written, and another statement may follow unless the
    program has ended. -/
def settle : Option Reply → Run Bool
  | none | some .quit => return false
  | some .done => return true
  | some (.failed e) => do
    Run.write e.text
    return (← get).alive

/-- The last line that is written. -/
def farewell : String := "Interpreter execution halted"

/-- The statements of a program until its end, as many as the number says. -/
def turns (echo : Bool) (fuel : Nat) : Nat → Run Unit
  | 0 => throw .outOfFuel
  | n + 1 => do
    if ← settle (← next echo fuel) then turns echo fuel n else Run.write farewell

/-- The run of a program. It fails if a line that starts a statement cannot be
    read, or if what is told to the user cannot be written. -/
def run (echo : Bool) (fuel : Nat) : Run Unit :=
  turns echo fuel fuel

end Session

/-- All that a program has written. -/
def Machine.written (m : Machine) : String :=
  m.output.foldl (fun text line => text ++ line ++ "\n") ""

end Linewise
