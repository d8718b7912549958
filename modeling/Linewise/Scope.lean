import Linewise.Frames
import Linewise.Operation
import Linewise.Symbol

/-!
# Scope

All that the value of an expression depends on: what is in memory, and the
frames through which variables are found by name.

A symbol that is no operator stands for a constant, a number, a function or a
variable, in this order (`lookup`).
-/

namespace Linewise

structure Scope where
  memory : Memory
  frames : Frames

namespace Scope

/-- The values with a name of their own. -/
def constant? : String → Option Value
  | "" | "nil" => some .nil
  | "yes" => some (.boolean true)
  | "no" => some (.boolean false)
  | "break" => some .loopExit
  | _ => none

/-- What a symbol stands for. -/
def find? (s : Scope) (symbol : String) : Option Value :=
  (constant? symbol).or <|
    ((Symbol.literal? symbol).map .number).or <|
      ((s.memory.registry.find? symbol).map .function).or <|
        (s.frames.find? symbol).map .var

/-- What a symbol stands for; a symbol that stands for nothing is a fault. -/
def lookup (s : Scope) (symbol : String) : Except Fault Value :=
  match s.find? symbol with
  | some v => .ok v
  | none => .error (.unknownName symbol)

end Scope

end Linewise
