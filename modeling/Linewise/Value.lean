import Linewise.Number

/-!
# Values

What an expression stands for. Variables, functions and blocks are values by
reference: two of them are the same if they are one object, whatever it holds.
The objects live in a `Memory`, and a value only points at them.
-/

namespace Linewise

/-- A place of a memory that holds a variable. -/
structure VarRef where
  index : Nat
deriving DecidableEq, Repr

/-- A place of a memory that holds a function. -/
structure FunctionRef where
  index : Nat
deriving DecidableEq, Repr

/-- A place of a memory that holds a block. -/
structure BlockRef where
  index : Nat
deriving DecidableEq, Repr

inductive Value where
  | number (n : Number)
  | boolean (b : Bool)
  | string (s : String)
  | nil
  /-- The value of `break`, which ends a loop. -/
  | loopExit
  /-- The arguments of a call. -/
  | list (values : List Value)
  /-- The parameters of a function. -/
  | parameters (names : List String)
  | var (r : VarRef)
  | function (r : FunctionRef)
  | block (r : BlockRef)

namespace Value

@[match_pattern]
def integer (n : Int64) : Value := number (.integer n)

@[match_pattern]
def real (x : Float) : Value := number (.real x)

@[match_pattern]
def fraction (f : Fraction) : Value := number (.fraction f)

def datatype : Value → Datatype
  | integer _ => .integer
  | real _ => .real
  | fraction _ => .fraction
  | boolean _ => .boolean
  | string _ => .string
  | nil => .nil
  | loopExit => .loopExit
  | list _ => .argumentList
  | parameters _ => .parameterList
  | var _ => .var
  | function _ => .function
  | block _ => .block

def isNil : Value → Bool
  | nil => true
  | _ => false

def isLoopExit : Value → Bool
  | loopExit => true
  | _ => false

mutual

/-- A value without the lists around the others in it, given what a variable
    comes to. -/
def flattenWith (contents : VarRef → List Value) : Value → List Value
  | list values => flattenAllWith contents values
  | var r => contents r
  | v => [v]

def flattenAllWith (contents : VarRef → List Value) : List Value → List Value
  | [] => []
  | v :: values => v.flattenWith contents ++ flattenAllWith contents values

end

mutual

/-- The text of a value, given those of variables and of functions. -/
def textWith (ofVar : VarRef → String) (ofFunction : FunctionRef → String) : Value → String
  | number n => n.text
  | boolean b => if b then "yes" else "no"
  | string s => "\"" ++ s ++ "\""
  | nil => "nil"
  | loopExit => "break"
  | list values => ", ".intercalate (textsWith ofVar ofFunction values)
  | parameters names => "(" ++ ", ".intercalate names ++ ")"
  | var r => ofVar r
  | function r => ofFunction r
  | block _ => "block"

def textsWith (ofVar : VarRef → String) (ofFunction : FunctionRef → String) :
    List Value → List String
  | [] => []
  | v :: values => v.textWith ofVar ofFunction :: textsWith ofVar ofFunction values

end

end Value

end Linewise
