import Buildwright.Number.Integer

/-!
# Grammars of command lines

A command takes options and positional words. A grammar lists both as slots: what a slot
is called, how often it can be filled, and which texts fill it. A word of a command line
is read by its shape alone: two dashes, a long option, letters behind one dash, or a
plain word.

## Contents

* `Usage` — why a command line is not run;
* `Form`, `Role`, `Slot` — one option or positional word;
* `Grammar` — the slots of a command;
* `Word.ofText` — the shape of a word.
-/

namespace Buildwright.CommandLine

/-- Why a command line is not run: a request for a text about the program, or a mistake. -/
inductive Usage where
  | help
  | version
  | unknownArgument (word : String)
  | unknownCommand (word : String)
  | missingValue (slot : String)
  /-- An option that takes no value was given one. -/
  | unexpectedValue (slot : String)
  /-- A value is none of those that can be chosen. -/
  | noSuchChoice (slot value : String)
  /-- A value does not have the form that is asked for. -/
  | malformedValue (slot value : String)
  | missingArgument (slot : String)
  /-- An option that can be given once was repeated. -/
  | repeated (slot : String)
deriving DecidableEq, Repr, Inhabited

namespace Usage

/-- The exit code: only mistakes are failures. -/
def exitCode : Usage → Nat
  | help | version => 0
  | _ => 2

end Usage

/-- The most workers that can be asked for. -/
def maxJobs : Nat := 256

/-- The number of workers that a text asks for. -/
def jobsOf? (s : String) : Option Nat :=
  let (negative, digits) := Number.splitSign s.toList
  if negative then none
  else (Number.natural? 10 digits).filter fun n => 1 ≤ n && n ≤ maxJobs

/-- The texts that fill a slot. -/
inductive Form where
  | any
  /-- A number of workers. -/
  | jobs
  /-- One of several names. -/
  | choice (names : List String)
deriving DecidableEq, Repr, Inhabited

def Form.check (slot : String) (value : String) : Form → Except Usage Unit
  | any => .ok ()
  | jobs => if (jobsOf? value).isSome then .ok () else .error (.malformedValue slot value)
  | choice names => if value ∈ names then .ok () else .error (.noSuchChoice slot value)

/-- What filling a slot means. -/
inductive Role where
  | help
  | version
  /-- An option without a value, given at most once. -/
  | switch
  /-- A value, given at most once. -/
  | single
  /-- Values in the order in which they are given. -/
  | many
deriving DecidableEq, Repr, Inhabited

/-- Whether a slot is filled by values. -/
def Role.takesValue : Role → Bool
  | single | many => true
  | _ => false

/-- An option or a positional word. -/
structure Slot where
  /-- The long name of an option, or the name of a positional word. -/
  name : String
  letter : Option Char := none
  role : Role
  form : Form := .any
  /-- Whether the command cannot do without it. -/
  required : Bool := false
  /-- Whether every word behind its first value is another value, whatever its shape. -/
  takesRest : Bool := false
deriving DecidableEq, Repr, Inhabited

/-- The option that asks for help; every command has it. -/
def Slot.help : Slot := { name := "help", letter := some 'h', role := .help }

/-- The slots of a command. -/
structure Grammar where
  options : List Slot := [.help]
  positionals : List Slot := []
  /-- The commands below this one. -/
  commands : List String := []
deriving DecidableEq, Repr, Inhabited

namespace Grammar

/-- The option of a long name. -/
def option? (g : Grammar) (name : String) : Option Slot :=
  g.options.find? (·.name = name)

def letter? (g : Grammar) (c : Char) : Option Slot :=
  g.options.find? (·.letter = some c)

end Grammar

/-- The shape of a word. -/
inductive Word where
  /-- Two dashes: all words behind them are plain. -/
  | escape
  /-- A long option, with the value behind an equals sign. -/
  | long (name : String) (value : Option String)
  /-- Letters of options behind a dash. -/
  | letters (cs : List Char)
  | plain
deriving DecidableEq, Repr

namespace Word

/-- The name and the value of a long option. -/
def splitLong (cs : List Char) : Word :=
  let name := String.ofList (cs.takeWhile (· ≠ '='))
  match cs.dropWhile (· ≠ '=') with
  | [] => long name none
  | _ :: value => long name (some (String.ofList value))

/-- The shape of a word. -/
def ofText (s : String) : Word :=
  match s.toList with
  | ['-', '-'] => escape
  | '-' :: '-' :: cs => splitLong cs
  | '-' :: c :: cs => letters (c :: cs)
  | _ => plain

end Word

end Buildwright.CommandLine
