import Linewise.Expression
import Linewise.Files
import Linewise.World

/-!
# The machine

The state of a running program, and what a program can do to it apart from
evaluating: read and write lines, enter and leave frames, and capture blocks.

Statements come from two kinds of places. While a block runs, its next
statements are taken from a *cursor*, the list of those left; one cursor lies on
top of another if the block runs within the other. Without a cursor, they are
lines of the active source. A multi-line construct finds its body in the same
place as itself (`captureBlock`), but `read` and `read_string` always take a
line of the source (`readInput`).

A `Run` is a step of a program: it ends with a value or is interrupted, and
leaves a machine either way. `ensuring` cleans up in both cases.
-/

namespace Linewise

structure Machine extends Scope where
  /-- The statements left of each block that is running, the innermost first. -/
  cursors : List (List String)
  /-- The source that is read from. -/
  source : Source
  /-- The sources that loaded it, the last one first. -/
  suspended : List Source
  files : Files
  /-- How deep calls are nested, of functions and of blocks. -/
  depth : Nat
  /-- Every fault is fatal. -/
  strict : Bool
  alive : Bool
  /-- The number of lines read so far. -/
  line : Nat
  /-- The lines written so far, without those that were refused. -/
  output : Array String
  world : World

/-- Why a step does not end with a value. -/
inductive Interrupt where
  | fault (f : Fault)
  /-- The step takes longer than was provided for. -/
  | outOfFuel
deriving DecidableEq, Repr

/-- A step of a program. -/
abbrev Run := EStateM Interrupt Machine

namespace Machine

/-- The deepest nesting of calls. -/
def maxDepth : Nat := 64

/-- The machine before the first line of a program. -/
def start (source : Source) (files : Files) (world : World) : Machine where
  memory := .initial
  frames := .outermost
  cursors := []
  source
  suspended := []
  files
  depth := 0
  strict := false
  alive := true
  line := 0
  output := #[]
  world

def kill (m : Machine) : Machine :=
  { m with alive := false }

/-- A new variable in the frame on top. -/
def declare (m : Machine) (name : String) (value : Value) : VarRef × Machine :=
  let (r, memory) := m.memory.addVariable { name, value }
  (r, { m with memory, frames := m.frames.bind name r })

/-- The machine with a new frame, in which variables of the given names hold
    the given values. -/
def enterFrame (m : Machine) (bindings : List (String × Value)) : Machine :=
  bindings.foldl (fun m (name, value) => (m.declare name value).2)
    { m with frames := m.frames.push }

/-- The machine without the frame on top, if there are at least `level`. -/
def leaveFrame (level : Nat) (m : Machine) : Machine :=
  if level ≤ m.frames.level then { m with frames := m.frames.pop } else m

/-- The machine after `exit`, which leaves the frame on top; the program ends if
    it is the only one. -/
def exitFrame (m : Machine) : Machine :=
  if m.frames.level ≤ 1 then m.kill else { m with frames := m.frames.pop }

/-- The machine that reads from a further source, until it is used up. -/
def pushSource (m : Machine) (source : Source) : Machine :=
  { m with source, suspended := m.source :: m.suspended }

end Machine

namespace Run

/-- The step that fails. -/
def fail {α : Type} (f : Fault) : Run α :=
  throw (.fault f)

/-- The step that reads off the machine. -/
def reading {α : Type} (x : Machine → Except Fault α) : Run α := fun m =>
  match x m with
  | .ok a => .ok a m
  | .error f => .error (.fault f) m

/-- The step that does `x`, and then `after` whether `x` failed or not. -/
def ensuring {α : Type} (after : Machine → Machine) (x : Run α) : Run α := fun m =>
  match x m with
  | .ok a m => .ok a (after m)
  | .error e m => .error e (after m)

/-- What the step gives, or the fault that it ends with. -/
def caught {α : Type} (x : Run α) : Run (Except Fault α) := fun m =>
  match x m with
  | .ok v m => .ok (.ok v) m
  | .error (.fault f) m => .ok (.error f) m
  | .error .outOfFuel m => .error .outOfFuel m

/-- The value held by a variable, after the step that gave it. -/
def held (x : Run Value) : Run Value := do
  let v ← x
  reading fun m => .ok (m.memory.held v)

/-! ## Lines -/

/-- The next line of the active source. -/
def readLine : Run (Option String) := fun m =>
  match m.source.next with
  | (.ok none, source) => .ok none { m with source }
  | (.ok (some line), source) => .ok (some line) { m with source, line := m.line + 1 }
  | (.error reason, source) => .error (.fault (.sourceFailed reason)) { m with source }

/-- The next line of the active source, which must have one. -/
def readInput : Run String := do
  match ← readLine with
  | some line => return line
  | none => fail .noInput

/-- The step that gives what `x` is. -/
def ofExcept {α : Type} (x : Except Fault α) : Run α :=
  reading fun _ => x

/-- The block that starts with the next statement of the innermost running
    block, or with the next line of the source if no block is running. -/
def captureBlock (elseAllowed : Bool) : Run Block := fun m =>
  let c := Capture.start elseAllowed
  match m.cursors, m.source with
  | statements :: cursors, _ =>
    let o := c.run .ok statements
    ofExcept o.block { m with cursors := o.rest :: cursors }
  | [], .script lines =>
    let o := c.run (·.mapError .sourceFailed) lines
    ofExcept o.block { m with source := .script o.rest, line := m.line + o.read }
  | [], .directory => fail (.sourceFailed .isDirectory) m

/-- The next statement of the innermost running block. -/
def advance : Run (Option String) := fun m =>
  match m.cursors with
  | (statement :: statements) :: cursors =>
    .ok (some statement) { m with cursors := statements :: cursors }
  | _ => .ok none m

/-! ## Calls -/

/-- The step while a block with the given statements is running. -/
def withCursor {α : Type} (statements : List String) (x : Run α) : Run α := fun m =>
  ensuring (fun m => { m with cursors := m.cursors.tail }) x
    { m with cursors := statements :: m.cursors }

/-- The step in a frame of its own, which is left afterwards unless it has been
    left already. -/
def withFrame {α : Type} (bindings : List (String × Value)) (x : Run α) : Run α := fun m =>
  let m := m.enterFrame bindings
  ensuring (Machine.leaveFrame m.frames.level) x m

/-- The step one call deeper, unless calls are nested too deep. -/
def nested {α : Type} (x : Run α) : Run α := fun m =>
  if Machine.maxDepth ≤ m.depth then fail (.tooDeep Machine.maxDepth) m
  else
    ensuring (fun m => { m with depth := m.depth - 1 }) x { m with depth := m.depth + 1 }

/-- The definition of a function. -/
def define (f : Function) : Run FunctionRef := fun m =>
  match m.memory.registry.define f with
  | .ok (r, registry) => .ok r { m with memory := { m.memory with registry } }
  | .error e => fail e m

/-! ## The world -/

/-- The step that writes a line, unless that is refused. -/
def write (line : String) : Run Unit := fun m =>
  match m.world.sink.ask line with
  | (.ok _, sink) => .ok () { m with world.sink := sink, output := m.output.push line }
  | (.error reason, sink) => .error (.fault (.cannotWrite reason)) { m with world.sink := sink }

/-- A random integer from 0 to `n`, without `n` itself. -/
def draw (n : Int64) : Run Value := modifyGet fun m =>
  let (k, draws) := m.world.draws.draw n
  (.integer k, { m with world.draws := draws })

end Run

end Linewise
