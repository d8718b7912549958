/-!
# Keywords

A statement that starts with a keyword is not an expression: the keyword
decides what is done with the rest of it.
-/

namespace Linewise

/-- A symbol that gives the statement it starts a meaning of its own. -/
inductive Keyword where
  /-- `#`, a directive to the interpreter. -/
  | directive
  /-- `let`, an assignment or the definition of a function. -/
  | assignment
  /-- `if` -/
  | conditional
  /-- `while` -/
  | repetition
  /-- `begin`, which opens a block. -/
  | opening
  /-- `end`, which closes one. -/
  | closing
  /-- `else` -/
  | alternative
  /-- `otherwise`, another word for `else`. -/
  | otherwise
  /-- `for`, which no statement uses yet. -/
  | reserved
deriving DecidableEq, Repr

namespace Keyword

def symbol : Keyword → String
  | directive => "#"
  | assignment => "let"
  | conditional => "if"
  | repetition => "while"
  | opening => "begin"
  | closing => "end"
  | alternative => "else"
  | otherwise => "otherwise"
  | reserved => "for"

/-- All keywords. -/
def all : List Keyword :=
  [directive, assignment, conditional, repetition, opening, closing, alternative, otherwise,
    reserved]

/-- The keyword written `s`. -/
def ofSymbol? (s : String) : Option Keyword :=
  all.find? fun k => k.symbol == s

/-- The keywords that start the second branch of a construct. -/
def isElse : Keyword → Bool
  | alternative | otherwise => true
  | _ => false

theorem ofSymbol?_symbol (k : Keyword) : ofSymbol? k.symbol = some k := by
  cases k <;> decide

theorem ofSymbol?_eq_some_iff {s : String} {k : Keyword} : ofSymbol? s = some k ↔ k.symbol = s :=
  ⟨fun h => by simpa using List.find?_some h, fun h => h ▸ ofSymbol?_symbol k⟩

end Keyword

end Linewise
