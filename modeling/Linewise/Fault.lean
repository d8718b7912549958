import Linewise.Keyword
import Linewise.Operator
import Linewise.Real.Text

/-!
# Faults

Everything that can go wrong. A `Fault` names a cause, with what is needed to
describe it; how it is told to the user is written once, in `Fault.report`.

A fault is a bare cause until it leaves a statement. Then it becomes an
`Exception`, which knows the line that was read last and whether the program
has to stop.
-/

namespace Linewise

/-- The types of values. -/
inductive Datatype where
  | integer
  | real
  | fraction
  | boolean
  | string
  | nil
  | loopExit
  | argumentList
  | parameterList
  | var
  | function
  | block
deriving DecidableEq, Repr

/-- The name of a type, as it is told to the user. -/
def Datatype.name : Datatype → String
  | integer => "integer"
  | real => "real"
  | fraction => "fraction"
  | boolean => "boolean"
  | string => "string"
  | nil => "nil"
  | loopExit => "break"
  | argumentList => "argument list"
  | parameterList => "parameter list"
  | var => "variable"
  | function => "function"
  | block => "block"

/-- Why a file, or a line of it, cannot be read. -/
inductive Unreadable where
  | notFound
  | notDirectory
  | isDirectory
  | nameTooLong
  | denied
  /-- The name holds a zero character. -/
  | zeroInName
  /-- The bytes are not the UTF-8 encoding of a text. -/
  | notText
deriving DecidableEq, Repr

/-- What the system says about it. -/
def Unreadable.message : Unreadable → String
  | notFound => "No such file or directory (os error 2)"
  | notDirectory => "Not a directory (os error 20)"
  | isDirectory => "Is a directory (os error 21)"
  | nameTooLong => "File name too long (os error 36)"
  | denied => "Permission denied (os error 13)"
  | zeroInName => "file name contained an unexpected NUL byte"
  | notText => "stream did not contain valid UTF-8"

/-- The classes of faults. -/
inductive FaultClass where
  | form
  | name
  | type
  | arity
  | semantic
  | control
  | arithmetic
  | source
deriving DecidableEq, Repr

/-- The name of a class, as it is told to the user. -/
def FaultClass.title : FaultClass → String
  | form => "SyntaxError"
  | name => "NameError"
  | type => "TypeError"
  | arity => "ArityError"
  | semantic => "SemanticError"
  | control => "ControlError"
  | arithmetic => "ArithmeticError"
  | source => "IoError"

/-- The cause of a failure. -/
inductive Fault where
  /-- The line ends within a string. -/
  | stringNotClosed
  /-- Brackets are closed that were never opened. -/
  | tooManyClosing (count : Nat)
  /-- Brackets are still open at the end of the line. -/
  | tooFewClosing (count : Nat)
  /-- The input ends within a block. -/
  | blockNotTerminated
  | severalBegins
  | severalEnds
  /-- `@` or `~` with nothing to its right. -/
  | danglingReference (symbol : String)
  /-- An operator that lacks an operand. -/
  | danglingOperator (symbol : String)
  /-- A bar that no bar closes. -/
  | modulusNotClosed
  | unknownDirective (name : String)
  | directiveWithoutParameter
  | directiveParameter
  /-- What stands after `let` cannot be assigned to. -/
  | invalidTarget
  | missingTarget
  | missingEquals
  | missingValue
  | invalidParameter
  | missingParameter
  | missingBody
  | missingCondition (keyword : Keyword)
  | missingComma (keyword : Keyword)
  | textAfterBegin
  /-- Operands are left that no operator joins. -/
  | incompleteStatement
  | unknownName (name : String)
  | unknownBuiltin (name : String)
  | notBoolean (found : Datatype)
  | notString (found : Datatype)
  /-- An operand, of the operation called `operation`, is not a number. -/
  | notNumber (found : Datatype) (operation : String)
  | numberToString
  | stringToNumber
  | stringOperand (op : Arithmetic)
  | notNegatable (found : Datatype)
  | incomparable (left right : Datatype)
  | conditionNotBoolean
  | referenceToValue (found : Datatype)
  | dereferenceOfValue (found : Datatype)
  /-- Dereference of a variable that holds no reference. -/
  | notReference
  | boundNotNumber (found : Datatype)
  | boundNotPositive (bound : Int64)
  | wrongArity (name : String) (given expected : Nat)
  | duplicateElse
  | elseNotAllowed
  | builtinRedefined (name : String)
  | selfReference
  | circularReference
  /-- An assignment would make a chain of references too long to be checked. -/
  | longReference
  /-- A chain of references does not end within the bound. -/
  | endlessReference
  | unexpectedKeyword (keyword : Keyword)
  | reservedKeyword
  | noElse
  | tooDeep (limit : Nat)
  | zeroDenominator
  | fractionOverflow (numerator denominator : Int)
  | integerOverflow (left : Int64) (op : Arithmetic) (right : Int64)
  | modulusOverflow (operand : Int64)
  | negationOverflow (operand : Int64)
  | integerRange (value : Float)
  | sourceFailed (reason : Unreadable)
  | noInput
  | cannotLoad (path : String) (reason : Unreadable)
  /-- A line that is written is refused. -/
  | cannotWrite (reason : String)
deriving DecidableEq, Repr

/-- What is told to the user about a fault. -/
structure Report where
  kind : FaultClass
  message : String
  /-- Advice, or nothing. -/
  hint : String
deriving DecidableEq, Repr

namespace Report

/-- The hint in brackets, behind a space; nothing if there is no hint. -/
def hintSuffix (r : Report) : String :=
  if r.hint = "" then "" else " (" ++ r.hint ++ ")"

/-- The text of a fault that ends a run. -/
def text (r : Report) : String :=
  r.kind.title ++ ": " ++ r.message ++ r.hintSuffix

/-- The text of a fault that ends a statement. -/
def announcement (r : Report) (fatal : Bool) (line : Nat) : String :=
  "*** " ++ (if fatal then "Fatal error" else "Warning") ++ "! " ++ r.message ++
    " on line " ++ toString line ++ r.hintSuffix

end Report

namespace Fault

/-- How a fault is told to the user. -/
def report : Fault → Report
  | stringNotClosed => ⟨.form, "String not closed", "another \" required"⟩
  | tooManyClosing n => ⟨.form, "Too many closing brackets", s!"remove {n}"⟩
  | tooFewClosing n => ⟨.form, "Too few closing brackets", s!"{n} required"⟩
  | blockNotTerminated => ⟨.form, "Block not terminated", "'end' required"⟩
  | severalBegins => ⟨.form, "Having more than one begin on a line is forbidden", ""⟩
  | severalEnds => ⟨.form, "Having more than one end on a line is forbidden", ""⟩
  | danglingReference s => ⟨.form, s!"Invalid expression term '{s}' at end of statement", ""⟩
  | danglingOperator s => ⟨.form, s!"Invalid expression term '{s}'", ""⟩
  | modulusNotClosed => ⟨.form, "Modulus brackets not closed", "another | required"⟩
  | unknownDirective s => ⟨.form, "Could not use directive", s!"directive '{s}' not recognised"⟩
  | directiveWithoutParameter =>
    ⟨.form, "Directive 'STRICT' could not be used", "invalid parameter (none given); use yes or no"⟩
  | directiveParameter =>
    ⟨.form, "Directive 'STRICT' could not be used", "invalid parameter; use yes or no"⟩
  | invalidTarget => ⟨.form, "Could not assign variable", "invalid variable name given"⟩
  | missingTarget => ⟨.form, "Could not assign variable", "no variable name given"⟩
  | missingEquals => ⟨.form, "Variable or function could not be assigned a value", "'=' required"⟩
  | missingValue =>
    ⟨.form, "Variable could not be assigned a value", "value to assign to variable must be given"⟩
  | invalidParameter => ⟨.form, "Parameters could not be parsed", "invalid parameter name given"⟩
  | missingParameter => ⟨.form, "Parameters could not be parsed", "last parameter missing"⟩
  | missingBody => ⟨.form, "Function could not be given a body", "function body must be given"⟩
  | missingCondition k =>
    ⟨.form, "Statement could not be evaluated", s!"{k.symbol} statement must be given a condition"⟩
  | missingComma k => ⟨.form, s!"{k.symbol} statement invalid", "comma required after condition"⟩
  | textAfterBegin => ⟨.form, "Unexpected symbols after 'begin'", "begin must be alone on its line"⟩
  | incompleteStatement =>
    ⟨.form, "Incomplete statement", "expression could not be evaluated completely"⟩
  | unknownName s => ⟨.name, s!"Variable or function with identifier '{s}' not found", ""⟩
  | unknownBuiltin s => ⟨.name, s!"Unknown builtin: {s}", ""⟩
  | notBoolean t => ⟨.type, s!"Expected boolean, got '{t.name}'", "yes or no"⟩
  | notString t => ⟨.type, s!"Expected string, got '{t.name}'", ""⟩
  | notNumber t operation =>
    ⟨.type, s!"Value of type '{t.name}' is not a number", s!"{operation} requires numbers"⟩
  | numberToString => ⟨.type, "Attempted addition of a number to a string", ""⟩
  | stringToNumber => ⟨.type, "Attempted addition of a string to a number", ""⟩
  | stringOperand op => ⟨.type, s!"Strings cannot be used in {op.noun} operations", ""⟩
  | notNegatable t =>
    ⟨.type, "Failed to make value negative", s!"values of type '{t.name}' cannot be made negative"⟩
  | incomparable l r => ⟨.type, s!"Cannot compare values of type '{l.name}' and '{r.name}'", ""⟩
  | conditionNotBoolean => ⟨.type, "Condition does not evaluate to a boolean value", "yes or no"⟩
  | referenceToValue t =>
    ⟨.type, s!"Attempted creation of reference to {t.name}", "expected variable identifier"⟩
  | dereferenceOfValue t =>
    ⟨.type, s!"Attempted dereference of {t.name}", "expected variable identifier"⟩
  | notReference => ⟨.type, "Dereference of value type variable", "expected reference variable"⟩
  | boundNotNumber t =>
    ⟨.type, s!"Expected number, got '{t.name}'", "random requires an upper bound"⟩
  | boundNotPositive n =>
    ⟨.type, s!"Invalid upper bound {n.toInt} for random", "upper bound must be positive"⟩
  | wrongArity name given expected =>
    ⟨.arity, s!"Incorrect number of arguments for function '{name}'",
      s!"{given} out of {expected} given"⟩
  | duplicateElse => ⟨.semantic, "Unexpected keyword 'else'", "else already used"⟩
  | elseNotAllowed => ⟨.semantic, "Unexpected keyword 'else'", "else not allowed in this construct"⟩
  | builtinRedefined name =>
    ⟨.semantic, s!"Standard library function with name '{name}' already exists", ""⟩
  | selfReference =>
    ⟨.semantic, "Illegal assignment attempted", "variables cannot reference themselves"⟩
  | circularReference => ⟨.semantic, "Illegal assignment attempted", "circular reference detected"⟩
  | longReference => ⟨.semantic, "Illegal assignment attempted", "reference chain too long"⟩
  | endlessReference => ⟨.semantic, "Reference chain too long", "circular reference detected"⟩
  | unexpectedKeyword k => ⟨.control, s!"Unexpected keyword '{k.symbol}'", ""⟩
  | reservedKeyword =>
    ⟨.control, "Unexpected keyword 'for'", "for loops are reserved but not implemented"⟩
  | noElse => ⟨.control, "No else statement found", ""⟩
  | tooDeep limit =>
    ⟨.control, "Maximum recursion depth exceeded", s!"more than {limit} nested calls"⟩
  | zeroDenominator => ⟨.arithmetic, "Division by zero", "denominator is 0"⟩
  | fractionOverflow n d => ⟨.arithmetic, s!"Fraction {n}/{d} overflows", ""⟩
  | integerOverflow a op b => ⟨.arithmetic, s!"{a.toInt} {op.symbol} {b.toInt} overflows", ""⟩
  | modulusOverflow a => ⟨.arithmetic, s!"|{a.toInt}| overflows", ""⟩
  | negationOverflow a => ⟨.arithmetic, s!"-{a.toInt} overflows", ""⟩
  | integerRange x => ⟨.arithmetic, s!"{Real.text x} does not fit in an integer", ""⟩
  | sourceFailed reason => ⟨.source, "Failed to read input", reason.message⟩
  | noInput => ⟨.source, "Could not read input", "no input left"⟩
  | cannotLoad path reason => ⟨.source, s!"Could not load '{path}'", reason.message⟩
  | cannotWrite reason => ⟨.source, "Failed to write output", reason⟩

end Fault

/-- A fault that has left a statement. -/
structure Exception where
  fault : Fault
  /-- The program stops here. -/
  fatal : Bool
  /-- The number of lines read so far. -/
  line : Nat
deriving DecidableEq, Repr

/-- The text of an exception. -/
def Exception.text (e : Exception) : String :=
  e.fault.report.announcement e.fatal e.line

theorem bind_eq_ok {α β : Type} {x : Except Fault α} {f : α → Except Fault β} {w : β} :
    x >>= f = .ok w ↔ ∃ v, x = .ok v ∧ f v = .ok w := by
  cases x with
  | ok v => exact ⟨fun h => ⟨v, rfl, h⟩, fun ⟨_, hv, h⟩ => Except.ok.inj hv ▸ h⟩
  | error e => exact ⟨nofun, nofun⟩

theorem map_eq_ok {α β : Type} {f : α → β} {x : Except Fault α} {w : β} :
    f <$> x = .ok w ↔ ∃ v, x = .ok v ∧ f v = w := by
  cases x with
  | ok v =>
    refine ⟨fun h => ⟨v, rfl, Except.ok.inj h⟩, fun ⟨_, hv, h⟩ => ?_⟩
    cases hv
    exact congrArg Except.ok h
  | error e => exact ⟨nofun, nofun⟩

end Linewise
