import Buildwright.CommandLine.Reading
import Buildwright.Configuration.Load

/-!
# Invocations

An invocation is what the words of a command line ask for: options of the program, and
a command with its own options. Without a command the build scripts are generated.

## Contents

* `Color`, `Request`, `Command`, `Invocation`;
* `Command.ofWords` — the command that a name and words ask for;
* `Invocation.ofWords` — the invocation that words ask for.
-/

namespace Buildwright.CommandLine

/-- The colours that a text can be printed in. -/
inductive Color where
  | red
  | green
  | yellow
  | blue
deriving DecidableEq, Repr, Inhabited

namespace Color

def all : List Color := [red, green, yellow, blue]

def name : Color → String
  | red => "red"
  | green => "green"
  | yellow => "yellow"
  | blue => "blue"

/-- The number that switches a terminal to a colour. -/
def ansiCode : Color → Nat
  | red => 31
  | green => 32
  | yellow => 33
  | blue => 34

def ofName? (name : String) : Option Color :=
  all.find? (·.name = name)

end Color

/-- What to generate. -/
structure Request where
  buildRoot : Option Path := none
  buildTypes : List String := []
  formats : List String := []
  /-- The declaration files to start from; none stands for that of the project root. -/
  files : List Path := []
deriving DecidableEq, Repr, Inhabited

/-- The commands of the program. -/
inductive Command where
  | generate (request : Request)
  | version
  | deleteFiles (paths : List Path)
  | echoColor (color : Color) (words : List String)
deriving DecidableEq, Repr, Inhabited

namespace Command

def names : List String := ["gen", "version", "delete-file", "echo-color"]

/-- The slots of generation. -/
def generateGrammar : Grammar where
  options := [
    { name := "build-root", role := .single },
    { name := "build-type", role := .many },
    { name := "format", role := .many },
    .help]
  positionals := [{ name := "FILE", role := .many }]

/-- The slots of deletion. -/
def deleteGrammar : Grammar where
  positionals := [{ name := "PATH", role := .many, required := true }]

/-- The slots of coloured output. -/
def echoGrammar : Grammar where
  positionals := [
    { name := "COLOR", role := .single, form := .choice (Color.all.map Color.name),
      required := true },
    { name := "TEXT", role := .many, takesRest := true }]

/-- The request that a reading gives. -/
def generateOf (r : Reading) : Command :=
  .generate {
    buildRoot := (r.value? "build-root").map Path.mk
    buildTypes := r.values "build-type"
    formats := r.values "format"
    files := (r.values "FILE").map Path.mk }

/-- The output that a reading asks for. -/
def echoOf (r : Reading) : Except Usage Command :=
  match (r.value? "COLOR").bind Color.ofName? with
  | some color => .ok (.echoColor color (r.values "TEXT"))
  | none => .error (.missingArgument "COLOR")

/-- The command of a name with the words behind it. -/
def ofWords (name : String) (words : List String) : Except Usage Command :=
  match name with
  | "gen" => (generateGrammar.read words).map generateOf
  | "version" => (({} : Grammar).read words).map fun _ => .version
  | "delete-file" =>
    (deleteGrammar.read words).map fun r => .deleteFiles ((r.values "PATH").map Path.mk)
  | "echo-color" => do echoOf (← echoGrammar.read words)
  | other => .error (.unknownCommand other)

end Command

/-- What a command line asks for. -/
structure Invocation where
  /-- The directory to work in, instead of the current one. -/
  directory : Option Path := none
  jobs : Option Nat := none
  verbose : Bool := false
  command : Option Command := none
deriving DecidableEq, Repr, Inhabited

namespace Invocation

/-- The command that asks for help on others. -/
def helpName : String := "help"

/-- The slots of the program itself. -/
def grammar : Grammar where
  options := [
    { name := "directory", letter := some 'C', role := .single },
    { name := "jobs", letter := some 'j', role := .single, form := .jobs },
    { name := "verbose", letter := some 'v', role := .switch },
    .help,
    { name := "version", letter := some 'V', role := .version }]
  commands := Command.names ++ [helpName]

/-- What a request for help on a path of commands comes to. No command has others below
    it. -/
def helpOn : List String → Usage
  | [] => .help
  | [name] => if name ∈ grammar.commands then .help else .unknownCommand name
  | name :: next :: _ =>
    if name ∈ grammar.commands then .unknownCommand next else .unknownCommand name

/-- The invocation that the options of the program and a command give. -/
def ofReading (r : Reading) (command : Option Command) : Invocation where
  directory := (r.value? "directory").map Path.mk
  jobs := (r.value? "jobs").bind jobsOf?
  verbose := r.has "verbose"
  command := command

/-- Whether a word begins a command where it stands. -/
def startsCommand (r : Reading) (word : String) : Bool :=
  !r.literal && !r.awaits && decide (word ∈ grammar.commands)

/-- Read words after `r`. Mistakes behind the name of a command are found first. -/
def readFrom (r : Reading) : List String → Except Usage Invocation
  | [] => do return ofReading (← grammar.finish r) none
  | word :: rest =>
    if startsCommand r word then
      if word = helpName then .error (helpOn rest)
      else do
        let command ← Command.ofWords word rest
        return ofReading (← grammar.finish r) (some command)
    else do readFrom (← grammar.step r word) rest

/-- The invocation that the words of a command line ask for. -/
def ofWords (words : List String) : Except Usage Invocation :=
  readFrom {} words

/-- The command to run. -/
def effective (i : Invocation) : Command :=
  i.command.getD (.generate {})

end Invocation

end Buildwright.CommandLine
