import Linewise.Fault
import Linewise.Text.Blank

/-!
# Lexemes

A line is cut into symbols and string literals (`scan`). A string literal runs
from one double quote to the next and may hold anything in between. Outside of
literals blanks separate symbols, some characters are symbols of their own
(`isSolitary`), and a run of any others is a symbol.

The operators `~=`, `>=`, `<=` and `/=` come out of this in two pieces, which
are joined afterwards (`join`), even if blanks stood between them.
-/

namespace Linewise

inductive Lexeme where
  | symbol (s : String)
  /-- A string literal, without its quotes. -/
  | text (s : String)
deriving DecidableEq, Repr

namespace Lexeme

/-- The characters that are symbols of their own. -/
def isSolitary (c : Char) : Bool :=
  ['^', '/', '*', '+', '-', ',', '|', '>', '<', '=', '{', '}', '[', ']', '(', ')', '#', '@',
    '~'].contains c

/-- What a scan is in the middle of: a symbol, of which there may be nothing
    yet, or a string literal. The characters seen of it come last first. -/
inductive Pending where
  | symbol (seen : List Char)
  | text (seen : List Char)

/-- The symbol that ends here, if there is any of it. -/
def finish (seen : List Char) : List Lexeme :=
  if seen.isEmpty then [] else [symbol (String.ofList seen.reverse)]

/-- The lexemes of a line, the operators of two characters in pieces. -/
def scan : Pending → List Char → Except Fault (List Lexeme)
  | .symbol seen, [] => .ok (finish seen)
  | .text _, [] => .error .stringNotClosed
  | .text seen, c :: cs =>
    if c = '"' then (text (String.ofList seen.reverse) :: ·) <$> scan (.symbol []) cs
    else scan (.text (c :: seen)) cs
  | .symbol seen, c :: cs =>
    if c = '"' then (finish seen ++ ·) <$> scan (.text []) cs
    else if isSolitary c then
      (finish seen ++ symbol (String.singleton c) :: ·) <$> scan (.symbol []) cs
    else if Text.isBlank c then (finish seen ++ ·) <$> scan (.symbol []) cs
    else scan (.symbol (c :: seen)) cs

/-- The first pieces of the operators that end in `=`. -/
def startsOperator (s : String) : Bool :=
  s == "~" || s == ">" || s == "<" || s == "/"

/-- The lexemes with the operators of two characters put together. -/
def join : List Lexeme → List Lexeme
  | symbol s :: symbol e :: rest =>
    if startsOperator s && e == "=" then symbol (s ++ "=") :: join rest
    else symbol s :: join (symbol e :: rest)
  | l :: rest => l :: join rest
  | [] => []

/-- The lexemes of a line. -/
def ofLine (line : String) : Except Fault (List Lexeme) :=
  join <$> scan (.symbol []) line.toList

end Lexeme

end Linewise
