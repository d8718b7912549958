/-!
# Operators

The symbols that stand between two operands, sorted into levels: of two
operators the one of the lower level binds tighter, and operators of one level
are taken from left to right.

| level | operators       |
|-------|-----------------|
| 0     | `^`             |
| 1     | `/` `*`         |
| 2     | `+` `-`         |
| 3     | `=` `~=` `/=`   |
| 4     | `<` `>` `<=` `>=` |
| 5     | `,`             |
| 6     | `and` `or`      |
-/

namespace Linewise

/-- The four operations of arithmetic. -/
inductive Arithmetic where
  | add
  | subtract
  | multiply
  | divide
deriving DecidableEq, Repr

namespace Arithmetic

def symbol : Arithmetic → String
  | add => "+"
  | subtract => "-"
  | multiply => "*"
  | divide => "/"

/-- The name of the operation in a sentence. -/
def noun : Arithmetic → String
  | add => "addition"
  | subtract => "subtraction"
  | multiply => "multiplication"
  | divide => "division"

end Arithmetic

/-- The comparisons of size. -/
inductive Comparison where
  | less
  | greater
  | atMost
  | atLeast
deriving DecidableEq, Repr

def Comparison.symbol : Comparison → String
  | less => "<"
  | greater => ">"
  | atMost => "<="
  | atLeast => ">="

/-- The comparisons of content. -/
inductive Equality where
  /-- Exact for exact numbers, within a tolerance once a real is involved. -/
  | equal
  /-- Numbers are alike when they round to the same whole number. -/
  | approximate
  | unequal
deriving DecidableEq, Repr

def Equality.symbol : Equality → String
  | equal => "="
  | approximate => "~="
  | unequal => "/="

/-- The connectives of booleans. -/
inductive Connective where
  | both
  | either
deriving DecidableEq, Repr

def Connective.symbol : Connective → String
  | both => "and"
  | either => "or"

/-- A symbol between two operands. -/
inductive Operator where
  | power
  | arithmetic (op : Arithmetic)
  | equality (op : Equality)
  | comparison (op : Comparison)
  /-- The comma, which makes a list. -/
  | enumerate
  | logic (op : Connective)
deriving DecidableEq, Repr

namespace Operator

/-- The number of levels. -/
def levels : Nat := 7

/-- How tight an operator binds; the tightest is of level 0. -/
def level : Operator → Nat
  | power => 0
  | arithmetic .multiply | arithmetic .divide => 1
  | arithmetic .add | arithmetic .subtract => 2
  | equality _ => 3
  | comparison _ => 4
  | enumerate => 5
  | logic _ => 6

def symbol : Operator → String
  | power => "^"
  | arithmetic op => op.symbol
  | equality op => op.symbol
  | comparison op => op.symbol
  | enumerate => ","
  | logic op => op.symbol

/-- All operators. -/
def all : List Operator :=
  [power, arithmetic .divide, arithmetic .multiply, arithmetic .add, arithmetic .subtract,
    equality .equal, equality .approximate, equality .unequal,
    comparison .less, comparison .greater, comparison .atMost, comparison .atLeast,
    enumerate, logic .both, logic .either]

/-- The operator written `s`. -/
def ofSymbol? (s : String) : Option Operator :=
  all.find? fun op => op.symbol == s

theorem level_lt (op : Operator) : op.level < levels := by
  rcases op with _ | op | op | op | _ | op <;> (try cases op) <;> decide

theorem ofSymbol?_symbol (op : Operator) : ofSymbol? op.symbol = some op := by
  rcases op with _ | op | op | op | _ | op <;> (try cases op) <;> decide

theorem symbol_of_ofSymbol? {s : String} {op : Operator} (h : ofSymbol? s = some op) :
    op.symbol = s := by
  simpa using List.find?_some h

theorem ofSymbol?_eq_some_iff {s : String} {op : Operator} :
    ofSymbol? s = some op ↔ op.symbol = s :=
  ⟨symbol_of_ofSymbol?, fun h => h ▸ ofSymbol?_symbol op⟩

end Operator

end Linewise
