import Linewise.Fault

/-!
# Sources

Where lines come from: a script, cut into lines when it is opened, or a
directory, which can be opened but not read.

The lines of a script are the pieces between its newlines; what comes after the
last newline is a line only if there is something of it. Carriage returns at
the end of a line are cut. A piece that is not the encoding of a text is read
like any other, but the reading fails, and the pieces after it are not affected
by that.
-/

namespace Linewise

/-- A line of a script, or why it cannot be read. -/
abbrev ScriptLine := Except Unreadable String

inductive Source where
  /-- The lines that are left. -/
  | script (lines : List ScriptLine)
  | directory

namespace Source

/-- Pieces with one more byte before them: a newline is a piece of its own,
    without the newline, and any other byte belongs to the piece it precedes. -/
def addByte (b : UInt8) (pieces : List (List UInt8)) : List (List UInt8) :=
  if b = 10 then [] :: pieces
  else
    match pieces with
    | [] => [[b]]
    | p :: pieces => (b :: p) :: pieces

/-- The pieces between newlines. -/
def pieces (bytes : List UInt8) : List (List UInt8) :=
  bytes.foldr addByte []

/-- A text without the carriage returns at its end. -/
def withoutReturns (s : String) : String :=
  String.ofList (s.toList.reverse.dropWhile (· == '\r')).reverse

/-- The line that a piece is. -/
def decode (piece : List UInt8) : ScriptLine :=
  match String.fromUTF8? piece.toByteArray with
  | some s => .ok (withoutReturns s)
  | none => .error .notText

/-- The lines of a script. -/
def linesOf (bytes : List UInt8) : List ScriptLine :=
  (pieces bytes).map decode

/-- The script with the given bytes. -/
def ofBytes (bytes : List UInt8) : Source :=
  script (linesOf bytes)

/-- The next line, or nothing at the end, and what is left. A directory is never
    used up. -/
def next : Source → Except Unreadable (Option String) × Source
  | script [] => (.ok none, script [])
  | script (l :: lines) => (some <$> l, script lines)
  | directory => (.error .isDirectory, directory)

end Source

end Linewise
