import Linewise.Number
import Linewise.Text.Letter

/-!
# The meaning of a symbol

A symbol is a number if the first of three readers that does not refuse it takes
all of it (`literal?`): digits, a point and digits; digits that are an integer; any
digits. It may name a variable, a function or a parameter if it starts with a letter
or an underscore and goes on with letters, numerals and underscores (`isName`). No
symbol is both.
-/

namespace Linewise.Symbol

/-- The number that decimal digits stand for. -/
def decimal (digits : List Char) : Nat :=
  digits.foldl (fun n c => 10 * n + (c.toNat - '0'.toNat)) 0

/-- A reader takes the start of a text and gives what it denotes, with the rest of the text, or
    it refuses the text. -/
abbrev Reader (α : Type) := List Char → Option (α × List Char)

namespace Reader

/-- What a reader that takes the whole text gives. -/
def whole? {α : Type} (read : Reader α) (cs : List Char) : Option α :=
  match read cs with
  | some (a, []) => some a
  | _ => none

/-- Takes digits, as many as there are. -/
def digits : Reader (List Char) := fun cs =>
  let ds := cs.takeWhile Char.isDigit
  if ds.isEmpty then none else some (ds, cs.dropWhile Char.isDigit)

/-- Takes digits, a point and digits, which are a real. -/
def pointed : Reader Number := fun cs => do
  let (whole, '.' :: cs) ← digits cs | none
  let (fraction, cs) ← digits cs
  some (.real (Float.ofScientific (decimal (whole ++ fraction)) true fraction.length), cs)

/-- Takes digits that are an integer of 64 bits. -/
def integer : Reader Number := fun cs => do
  let (ds, cs) ← digits cs
  let n ← Integer.narrow? (decimal ds)
  some (.integer n, cs)

/-- Takes digits as a real. -/
def wide : Reader Number := fun cs => do
  let (ds, cs) ← digits cs
  some (.real (Float.ofScientific (decimal ds) false 0), cs)

/-- Takes a number as the first reader takes it that does not refuse the text. What that has
    taken is not offered to the others. -/
def number : Reader Number := fun cs =>
  (pointed cs).or ((integer cs).or (wide cs))

end Reader

/-- The number that a symbol denotes. Signs are symbols of their own. -/
def literal? (s : String) : Option Number :=
  Reader.number.whole? s.toList

/-- The words that name nothing. -/
def reserved : List String :=
  ["let", "yes", "no", "nil", "if", "else", "otherwise", "begin", "end", "while", "for", "break",
    "or", "and"]

def startsName (c : Char) : Bool :=
  Text.isLetter c || c == '_'

def continuesName (c : Char) : Bool :=
  Text.isLetter c || Text.isNumeral c || c == '_'

/-- The symbol may name a variable, a function or a parameter. -/
def isName (s : String) : Bool :=
  !reserved.contains s &&
    match s.toList with
    | [] => false
    | c :: cs => startsName c && cs.all continuesName

end Linewise.Symbol
