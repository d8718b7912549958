import Linewise.Session

/-!
# The command line

What the arguments of the program ask for (`Request.ofArguments`), and what the
program gives back (`CommandLine.outcome`).

Arguments are taken one after the other, and the first that cannot be accepted,
or that asks for help or for the version, decides. An argument that starts with
a dash is a flag, unless it is a dash alone or comes after `--`. Flags of one
letter may be written together behind one dash. No flag takes a value, and none
may be given twice. Of other arguments there may be one, the path of a script;
without it the program is read from the standard input.
-/

namespace Linewise

/-- The flags of the program. -/
inductive Flag where
  | debug
  | strict
  | noHistory
  | help
  | version
deriving DecidableEq, Repr

namespace Flag

def all : List Flag :=
  [debug, strict, noHistory, help, version]

/-- The flag as a word, behind two dashes. -/
def word : Flag → String
  | debug => "debug"
  | strict => "strict"
  | noHistory => "no-history"
  | help => "help"
  | version => "version"

/-- The flag as a letter, behind one dash. -/
def letter? : Flag → Option Char
  | debug => some 'd'
  | strict => some 's'
  | noHistory => none
  | help => some 'h'
  | version => some 'V'

def ofWord? (s : String) : Option Flag :=
  all.find? (·.word == s)

def ofLetter? (c : Char) : Option Flag :=
  all.find? (·.letter? == some c)

theorem ofWord?_word (f : Flag) : ofWord? f.word = some f := by
  cases f <;> decide

theorem ofLetter?_eq_some_iff {c : Char} {f : Flag} :
    ofLetter? c = some f ↔ f.letter? = some c := by
  constructor
  · intro h
    simpa [ofLetter?] using List.find?_some h
  · intro h
    cases f <;> simp only [letter?, Option.some.injEq, reduceCtorEq] at h <;> subst h <;> decide

end Flag

/-- Why arguments are refused. -/
inductive Refusal where
  | unexpected (arg : String)
  | repeated (f : Flag)
  | unexpectedValue (f : Flag) (value : String)
  | emptyScript
deriving DecidableEq, Repr

/-- What the arguments ask for. -/
inductive Request where
  | run (script : Option String) (strict : Bool)
  | version
  | help
  | refused (r : Refusal)
deriving DecidableEq, Repr

/-- What some arguments have given. -/
structure Arguments where
  script : Option String
  flags : List Flag
deriving DecidableEq, Repr

namespace Arguments

/-- No arguments. -/
def empty : Arguments where
  script := none
  flags := []

/-- One more flag. -/
def addFlag (a : Arguments) : Flag → Except Request Arguments
  | .help => .error .help
  | .version => .error .version
  | f =>
    if f ∈ a.flags then .error (.refused (.repeated f))
    else .ok { a with flags := f :: a.flags }

/-- One more flag, written as the given word. -/
def addWord (a : Arguments) (word : String) : Except Request Arguments :=
  let (name, rest) := word.toList.span (· ≠ '=')
  match Flag.ofWord? (String.ofList name), rest with
  | none, _ => .error (.refused (.unexpected ("--" ++ String.ofList name)))
  | some f, [] => a.addFlag f
  | some f, _ :: value => .error (.refused (.unexpectedValue f (String.ofList value)))

/-- One more flag, written as the given letter. -/
def addLetter (a : Arguments) (letter : Char) : Except Request Arguments :=
  match Flag.ofLetter? letter with
  | none => .error (.refused (.unexpected ("-" ++ letter.toString)))
  | some f => a.addFlag f

/-- The path of the script. -/
def addScript (a : Arguments) (path : String) : Except Request Arguments :=
  if path = "" then .error (.refused .emptyScript)
  else if a.script.isSome then .error (.refused (.unexpected path))
  else .ok { a with script := some path }

/-- All of the arguments after those in `a`. -/
def gather (a : Arguments) : List String → Except Request Arguments
  | [] => .ok a
  | arg :: args =>
    match arg.toList with
    | ['-', '-'] => args.foldlM addScript a
    | '-' :: '-' :: word => do gather (← a.addWord (String.ofList word)) args
    | '-' :: c :: letters => do gather (← (c :: letters).foldlM addLetter a) args
    | _ => do gather (← a.addScript arg) args

end Arguments

/-- What the arguments ask for. -/
def Request.ofArguments (args : List String) : Request :=
  match Arguments.empty.gather args with
  | .ok a => .run a.script (.strict ∈ a.flags)
  | .error r => r

namespace CommandLine

/-- What the program gives back. -/
structure Outcome where
  code : Nat
  output : String
  errors : String
deriving DecidableEq, Repr

/-- The name of the program and its version. -/
def versionText : String := "toast 0.1.0\n"

def usageText : String := "Usage: toast [OPTIONS] [SCRIPT]\n"

def helpText : String :=
  "Interpreter for the Toast expression language\n\n" ++ usageText ++ "
Arguments:
  [SCRIPT]  Script to run instead of the interactive prompt

Options:
  -d, --debug       Show debug output
  -s, --strict      Halt on the first exception, as if the program started with `#STRICT yes`
      --no-history  Neither load nor save the prompt history
  -h, --help        Print help
  -V, --version     Print version
"

/-- What is said about arguments that are refused. -/
def refusalText (r : Refusal) : String :=
  let message :=
    match r with
    | .unexpected arg => s!"unexpected argument '{arg}' found"
    | .repeated f => s!"the argument '--{f.word}' cannot be used multiple times"
    | .unexpectedValue f value =>
      s!"unexpected value '{value}' for '--{f.word}' found; no more were expected"
    | .emptyScript => "a value is required for '[SCRIPT]' but none was supplied"
  "error: " ++ message ++ "\n\n" ++ usageText ++ "\nFor more information, try '--help'.\n"

/-- What is said about a script that cannot be opened. -/
def openingText (path : String) (reason : Unreadable) : String :=
  s!"Error: Failed to open {path}\n\nCaused by:\n    {reason.message}\n"

/-- What is said about a program whose next statement cannot be read, or that cannot
    write. -/
def failureText (f : Fault) : String :=
  s!"Error: {f.report.text}\n"

/-- The source of the program. -/
def source (script : Option String) (input : Source) (files : Files) : Except String Source :=
  match script with
  | none => .ok input
  | some path => (files path).mapError (openingText path)

/-- What the program gives back for its arguments and its standard input, if the
    number is large enough for it to end. -/
def outcome (args : List String) (input : Source) (files : Files) (world : World) (fuel : Nat) :
    Option Outcome :=
  match Request.ofArguments args with
  | .version => some ⟨0, versionText, ""⟩
  | .help => some ⟨0, helpText, ""⟩
  | .refused r => some ⟨2, "", refusalText r⟩
  | .run script strict =>
    match source script input files with
    | .error text => some ⟨1, "", text⟩
    | .ok source =>
      match Session.run false fuel { Machine.start source files world with strict } with
      | .ok _ m => some ⟨0, m.written, ""⟩
      | .error (.fault f) m => some ⟨1, m.written, failureText f⟩
      | .error .outOfFuel _ => none

end CommandLine

end Linewise
