import Linewise.Item
import Linewise.Text.Blank

/-!
# Blocks

A block is a list of statements, kept as text, that can be run any number of
times. The body of a multi-line construct is captured into one, line by line,
until the `end` that closes the construct (`Capture.step`).

Some lines within a block open constructs of their own, whose `end` is not that
of the block. A capture counts the open ones: a line with `begin`, a line with
`if` or `while` that ends in a comma, and a line with `if` that ends in `else`
open one. The line `else` and a statement closes the `if` it belongs to, as
that statement is all of its second branch; if it belongs to the block itself,
it ends the capture.

Where the construct has two branches, the statement `else` parts them.
-/

namespace Linewise

structure Block where
  statements : List String
  /-- The place of the `else` that parts the branches. -/
  elseAt : Option Nat
  /-- The construct may have a second branch. -/
  elseAllowed : Bool
deriving DecidableEq, Repr

namespace Block

def hasElse (b : Block) : Bool :=
  b.elseAt.isSome

/-- Where a branch starts and where it ends: the first branch, or the one after
    `else`. Without branches all statements are in either. -/
def range (b : Block) (first : Bool) : Except Fault (Nat × Nat) :=
  let size := b.statements.length
  if !b.elseAllowed then .ok (0, size)
  else
    match b.elseAt, first with
    | some i, true => .ok (0, i)
    | none, true => .ok (0, size)
    | some i, false => .ok (i + 1, size)
    | none, false => .error .noElse

/-- The statements of a branch. -/
def branch (b : Block) (first : Bool) : Except Fault (List String) := do
  let (start, stop) ← b.range first
  return (b.statements.take stop).drop start

end Block

/-- A block in the middle of its capture. -/
structure Capture where
  /-- The statements so far, last first. -/
  statements : List String
  elseAt : Option Nat
  elseAllowed : Bool
  /-- The number of constructs opened within the block and not yet closed. -/
  level : Nat
deriving Repr

namespace Capture

def start (elseAllowed : Bool) : Capture where
  statements := []
  elseAt := none
  elseAllowed
  level := 0

/-- What a line does to a capture. -/
inductive Step where
  | more (c : Capture)
  | complete (b : Block)
  | failed (f : Fault)

def push (c : Capture) (statement : String) : Capture :=
  { c with statements := statement :: c.statements }

def finish (c : Capture) : Block where
  statements := c.statements.reverse
  elseAt := c.elseAt
  elseAllowed := c.elseAllowed

/-- The line opens a construct by means of `keyword`, whose body follows. -/
def opensBody (g : Group) (keyword : Keyword) : Bool :=
  g.any (·.isSymbol keyword.symbol) && g.getLast?.any (·.isSymbol ",")

/-- The line ends in the `else` of an `if`, whose second branch follows. -/
def opensElse (g : Group) : Bool :=
  g.getLast?.any Item.isElse && g.dropLast.any (·.isSymbol Keyword.conditional.symbol)

/-- What follows the first symbol of a statement. -/
def afterKeyword (statement keyword : String) : String :=
  Text.trim (String.ofList (statement.toList.drop keyword.length))

/-- The line that starts with `else`, within no construct of the block. -/
def splitAt (c : Capture) (keyword statement : String) (g : Group) : Step :=
  if !c.elseAllowed then .failed .elseNotAllowed
  else if c.elseAt.isSome then .failed .duplicateElse
  else
    let c := { c with elseAt := some c.statements.length }
    if g.length = 1 then .more (c.push statement)
    else .complete ((c.push "else").push (afterKeyword statement keyword)).finish

/-- The symbol that a line starts with, if it is `else` or `otherwise`. -/
def startsWithElse? (g : Group) : Option String :=
  (g.head?.filter Item.isElse).bind Item.symbol?

/-- A line that is not empty and does not close the block, after its `begin`,
    its `end` and the bodies that it opens have been counted. -/
def addLine (c : Capture) (statement : String) (g : Group) : Step :=
  let opened := (opensElse g).toNat
  match startsWithElse? g with
  | some keyword =>
    if c.level = 0 then c.splitAt keyword statement g
    else
      let closed := if g.length = 1 then 0 else 1
      .more ({ c with level := c.level - closed + opened }.push statement)
  | none => .more ({ c with level := c.level + opened }.push statement)

/-- The capture after a line. -/
def step (c : Capture) (line : String) : Step :=
  let statement := Text.trim line
  match Group.ofLine statement with
  | .error f => .failed f
  | .ok [] => .more (c.push statement)
  | .ok g =>
    if 1 < g.count Keyword.opening.symbol then .failed .severalBegins
    else
      let level := c.level + g.count Keyword.opening.symbol
      if 1 < g.count Keyword.closing.symbol then .failed .severalEnds
      else if g.count Keyword.closing.symbol = 1 && level = 0 then .complete c.finish
      else
        let bodies := (opensBody g .conditional).toNat + (opensBody g .repetition).toNat
        { c with level := level - g.count Keyword.closing.symbol + bodies }.addLine statement g

/-- How a capture ends. -/
structure Outcome (α : Type) where
  block : Except Fault Block
  /-- The lines that were left. -/
  rest : List α
  /-- The number of lines that were read. -/
  read : Nat

/-- The capture of a block from lines, each of which may fail to be read. -/
def run {α : Type} (read : α → Except Fault String) (c : Capture) : List α → Outcome α
  | [] => { block := .error .blockNotTerminated, rest := [], read := 0 }
  | l :: lines =>
    match read l with
    | .error f => { block := .error f, rest := lines, read := 0 }
    | .ok line =>
      match c.step line with
      | .more c =>
        let o := run read c lines
        { o with read := o.read + 1 }
      | .complete b => { block := .ok b, rest := lines, read := 1 }
      | .failed f => { block := .error f, rest := lines, read := 1 }

end Capture

/-- The capture of a block from lines of text. -/
def Block.capture (elseAllowed : Bool) (lines : List String) : Capture.Outcome String :=
  (Capture.start elseAllowed).run .ok lines

end Linewise
