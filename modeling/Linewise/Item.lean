import Linewise.Lexeme

/-!
# Items and groups

A line is a tree: the brackets `(` and `)` nest its symbols and string literals
into groups. Everything else, the keywords, the precedence of operators and the
application of functions, is up to the evaluation of the tree.

A bar is a bracket too. The first bar of a line opens a group, the next closes
it, and so on in turns; both bars also stay as symbols on either side of the
group, so that it can be told from one in round brackets.
-/

namespace Linewise

inductive Item where
  | symbol (s : String)
  /-- A string literal. -/
  | text (s : String)
  | group (items : List Item)

/-- The items of a line, or of a pair of brackets in it. -/
abbrev Group := List Item

namespace Item

/-- The text of a symbol. -/
def symbol? : Item → Option String
  | symbol s => some s
  | _ => none

/-- The item is the symbol `s`. -/
def isSymbol (item : Item) (s : String) : Bool :=
  item.symbol? == some s

/-- The keyword that the item is. -/
def keyword? (item : Item) : Option Keyword :=
  item.symbol?.bind Keyword.ofSymbol?

/-- The item is `else` or `otherwise`. -/
def isElse (item : Item) : Bool :=
  item.keyword?.any Keyword.isElse

mutual

/-- The text of an item: literals are quoted, and the items of a group stand
    between brackets, with blanks around each. -/
def print : Item → String
  | symbol s => s
  | text s => "\"" ++ s ++ "\""
  | group items => "(" ++ printAll items ++ " )"

/-- The texts of some items, each behind a blank. -/
def printAll : List Item → String
  | [] => ""
  | item :: items => " " ++ print item ++ printAll items

end

end Item

namespace Group

/-- The text of a group. -/
def print (g : Group) : String :=
  (Item.group g).print

/-- The number of times that `s` stands in the group itself. -/
def count (g : Group) (s : String) : Nat :=
  g.countP (·.isSymbol s)

/-- The keyword that the group starts with. -/
def keyword? (g : Group) : Option Keyword :=
  g.head?.bind Item.keyword?

end Group

/-- The groups that are open in the middle of a line. -/
structure Nesting where
  /-- The items of the innermost group, last first. -/
  items : List Item
  /-- Those of the groups around it, the innermost first. -/
  outer : List (List Item)
  /-- The number of brackets that closed nothing. -/
  excess : Nat
  /-- The next bar closes a group. -/
  barOpen : Bool

namespace Nesting

/-- The start of a line. -/
def start : Nesting where
  items := []
  outer := []
  excess := 0
  barOpen := false

def push (n : Nesting) (item : Item) : Nesting :=
  { n with items := item :: n.items }

def openGroup (n : Nesting) : Nesting :=
  { n with items := [], outer := n.items :: n.outer }

def closeGroup (n : Nesting) : Nesting :=
  match n.outer with
  | [] => { n with excess := n.excess + 1 }
  | items :: outer => { n with items := .group n.items.reverse :: items, outer }

/-- The groups that are open after one more lexeme. -/
def add (n : Nesting) : Lexeme → Nesting
  | .text s => n.push (.text s)
  | .symbol s =>
    if s = "(" then n.openGroup
    else if s = ")" then n.closeGroup
    else if s = "|" then
      if n.barOpen then { n.closeGroup with barOpen := false }.push (.symbol s)
      else { n.push (.symbol s) with barOpen := true }.openGroup
    else n.push (.symbol s)

/-- The items of the line, at the end of which nothing may be open. -/
def finish (n : Nesting) : Except Fault Group :=
  if 0 < n.excess then .error (.tooManyClosing n.excess)
  else if 0 < n.outer.length then .error (.tooFewClosing n.outer.length)
  else .ok n.items.reverse

end Nesting

/-- The tree of a line. -/
def Group.ofLine (line : String) : Except Fault Group := do
  let lexemes ← Lexeme.ofLine line
  (lexemes.foldl Nesting.add .start).finish

end Linewise
