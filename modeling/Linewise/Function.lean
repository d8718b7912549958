import Linewise.Block
import Linewise.Value

/-!
# Functions

A function has a fixed list of parameters, or takes any number of arguments.
A call binds the arguments to the parameters in order (`Function.bind`); for
the parameters at the end that were given none, defaults are taken as long as
there are any.
-/

namespace Linewise

/-- The functions of the standard library. -/
inductive Builtin where
  | print
  | read
  | readString
  | random
  | load
  | exit
deriving DecidableEq, Repr

namespace Builtin

def name : Builtin → String
  | print => "print"
  | read => "read"
  | readString => "read_string"
  | random => "random"
  | load => "load"
  | exit => "exit"

/-- The standard library. -/
def all : List Builtin :=
  [print, read, readString, random, load, exit]

def ofName? (name : String) : Option Builtin :=
  all.find? (·.name == name)

theorem ofName?_name (b : Builtin) : ofName? b.name = some b := by
  cases b <;> decide

theorem ofName?_eq_some_iff {name : String} {b : Builtin} :
    ofName? name = some b ↔ b.name = name :=
  ⟨fun h => by simpa using List.find?_some h, fun h => h ▸ ofName?_name b⟩

end Builtin

/-- The arguments that a function takes. -/
inductive Arity where
  | fixed (parameters : List String)
  /-- Any number, named `arg0`, `arg1` and so on. -/
  | variadic
deriving DecidableEq, Repr

/-- What a call of a function does. -/
inductive Body where
  | native (b : Builtin)
  /-- An expression or a statement. -/
  | line (g : Group)
  | block (b : Block)

structure Function where
  name : String
  arity : Arity
  body : Body
  /-- The default of each parameter, if it has one. -/
  defaults : List (Option Value)

namespace Function

/-- A function of the given parameters, none of which has a default. -/
def ofBody (name : String) (parameters : List String) (body : Body) : Function where
  name
  arity := .fixed parameters
  body
  defaults := parameters.map fun _ => none

/-- A function of the standard library. -/
def ofBuiltin (b : Builtin) : Function where
  name := b.name
  arity :=
    match b with
    | .print => .variadic
    | .read | .readString => .fixed []
    | .random => .fixed ["n"]
    | .load => .fixed ["path"]
    | .exit => .fixed ["returnValue"]
  body := .native b
  defaults :=
    match b with
    | .print | .read | .readString => []
    | .random | .load => [none]
    | .exit => [some .nil]

/-- The defaults at the start of a list, up to the first that is missing, but
    not more than `count`. -/
def presentDefaults : Nat → List (Option Value) → List Value
  | count + 1, some v :: defaults => v :: presentDefaults count defaults
  | _, _ => []

/-- The arguments of a call, each with the name of its parameter. -/
def bind (f : Function) (args : List Value) : Except Fault (List (String × Value)) :=
  match f.arity with
  | .variadic => .ok (args.mapIdx fun i v => (s!"arg{i}", v))
  | .fixed parameters =>
    let added := presentDefaults (parameters.length - args.length) (f.defaults.drop args.length)
    let args := args ++ added
    if args.length = parameters.length then .ok (parameters.zip args)
    else .error (.wrongArity f.name args.length parameters.length)

end Function

end Linewise
