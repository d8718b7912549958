import Linewise.CommandLine

/-!
# The program

The program reads its script, and each file that a statement loads, when it gets
there: a statement that needs a file which has not been looked at yet is started
again, from the machine before it, once the file is known.
-/

namespace Linewise.Main

/-- The fuel of a run, more than any run can use up. -/
def fuel : Nat := Nat.pow 2 62

/-- The paths that have been looked at, and what was found. -/
abbrev Known := List (String × Except Unreadable Source)

def Known.files (k : Known) : Files := fun path =>
  (k.lookup path).getD (.error .notFound)

/-- Why a file cannot be opened. -/
def reasonOf : IO.Error → Unreadable
  | .inappropriateType .. => .notDirectory
  | .invalidArgument .. => .nameTooLong
  | .permissionDenied .. => .denied
  | _ => .notFound

/-- What opening a path gives. -/
def openPath (path : String) : IO (Except Unreadable Source) := do
  if path.toList.contains '\x00' then return .error .zeroInName
  match ← (IO.FS.readBinFile path).toBaseIO with
  | .ok bytes => return .ok (.ofBytes bytes.toList)
  | .error (.inappropriateType _ 21 _) => return .ok .directory
  | .error e => return .error (reasonOf e)

/-- Writes the lines of a machine from the given number on. -/
def flush (m : Machine) (written : Nat) : IO Unit := do
  let out ← IO.getStdout
  for line in m.output.toSubarray written do
    out.putStr (line ++ "\n")
  out.flush

/-- The path of a file that a statement did not find. -/
def missing? : Option Reply → Option String
  | some (.failed (.exception ⟨.cannotLoad path .notFound, _, _⟩)) => some path
  | _ => none

/-- What is done about a reply, and whether another statement may follow. -/
def settle (reply : Option Reply) : Run Bool := do
  if ← Session.settle reply then return true
  else
    Run.write Session.farewell
    return false

/-- Runs a program to its end. -/
partial def loop (known : Known) (m : Machine) : IO UInt32 := do
  let stop (interrupt : Interrupt) (after : Machine) : IO UInt32 := do
    flush after m.output.size
    match interrupt with
    | .fault f => IO.eprint (CommandLine.failureText f)
    | .outOfFuel => pure ()
    return 1
  match Session.next false fuel { m with files := known.files } with
  | .error interrupt after => stop interrupt after
  | .ok reply after =>
    match (missing? reply).filter fun path => (known.lookup path).isNone with
    | some path => loop ((path, ← openPath path) :: known) m
    | none =>
      match settle reply after with
      | .error interrupt after => stop interrupt after
      | .ok more after =>
        flush after m.output.size
        if more then loop known after else return 0

end Linewise.Main

open Linewise in
def main (args : List String) : IO UInt32 := do
  match Request.ofArguments args with
  | .version =>
    IO.print CommandLine.versionText
    return 0
  | .help =>
    IO.print CommandLine.helpText
    return 0
  | .refused r =>
    IO.eprint (CommandLine.refusalText r)
    return 2
  | .run script strict =>
    let (input, known) ← match script with
      | none =>
        let bytes ← (← IO.getStdin).readBinToEnd
        pure (Source.ofBytes bytes.toList, [])
      | some path => pure (.script [], [(path, ← Main.openPath path)])
    match CommandLine.source script input (Main.Known.files known) with
    | .error text =>
      IO.eprint text
      return 1
    | .ok source =>
      let random ← IO.stdGenRef.get
      let start := Machine.start source (Main.Known.files known) random
      Main.loop known { start with strict }
