import Linewise.Function

/-!
# The registry of functions

The functions of the standard library, and those of the program by name. To
define a function whose name is taken replaces what the function of that name
does and keeps the function: whoever holds it calls the new one from then on.
The names of the standard library cannot be taken.
-/

namespace Linewise

structure Registry where
  /-- All functions; those of the standard library come first, in its order. -/
  functions : Array Function
  /-- The names of the functions that the program defined. -/
  names : List (String × FunctionRef)

namespace Registry

/-- The standard library alone. -/
def standard : Registry where
  functions := (Builtin.all.map Function.ofBuiltin).toArray
  names := []

/-- The place of a function of the standard library. -/
def builtinRef (b : Builtin) : FunctionRef :=
  ⟨Builtin.all.idxOf b⟩

/-- The function of the program called `name`. -/
def defined? (r : Registry) (name : String) : Option FunctionRef :=
  r.names.lookup name

/-- The function called `name`. -/
def find? (r : Registry) (name : String) : Option FunctionRef :=
  (r.defined? name).or ((Builtin.ofName? name).map builtinRef)

/-- The function at a place. -/
def get? (r : Registry) (f : FunctionRef) : Option Function :=
  r.functions[f.index]?

/-- A further function, without a name to find it by. -/
def add (r : Registry) (f : Function) : FunctionRef × Registry :=
  (⟨r.functions.size⟩, { r with functions := r.functions.push f })

/-- The definition of a function. -/
def define (r : Registry) (f : Function) : Except Fault (FunctionRef × Registry) :=
  if (Builtin.ofName? f.name).isSome then .error (.builtinRedefined f.name)
  else
    match r.defined? f.name with
    | some ref => .ok (ref, { r with functions := r.functions.setIfInBounds ref.index f })
    | none =>
      let (ref, r) := r.add f
      .ok (ref, { r with names := (f.name, ref) :: r.names })

end Registry

end Linewise
