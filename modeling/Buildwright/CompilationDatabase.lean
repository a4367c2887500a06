import Buildwright.Emission
import Buildwright.Text.Quoted

/-!
# Compilation databases

A compilation database is a JSON list that tells for every source how it is compiled.
Its entries describe the first build type of the session.

## Contents

* `Entry`, `entries` — the entries of a rule;
* `text` — the list as it is written;
* `ofRule`, `ofAll` — the databases of a rule and of all compiled rules.
-/

namespace Buildwright.CompilationDatabase

/-- How one source is compiled. -/
structure Entry where
  directory : String
  file : String
  output : String
  arguments : List String
deriving DecidableEq, Repr, Inhabited

/-- The entries of the sources of a rule. -/
def entries (e : Emission) (id : RuleId) : List Entry :=
  match e.session.buildTypes.head? with
  | none => []
  | some t =>
    (e.resolved id).sources.map fun s =>
      let command := e.compileCommand id s t
      { directory := e.session.layout.projectRoot.text
        file := command.source.text
        output := command.object.text
        arguments := command.arguments }

/-- A character inside a JSON text. -/
def jsonChar (c : Char) : List Char :=
  if c = '"' then ['\\', '"']
  else if c = '\\' then ['\\', '\\']
  else if c = '\n' then ['\\', 'n']
  else if c = '\r' then ['\\', 'r']
  else if c = '\t' then ['\\', 't']
  else if c = '\x08' then ['\\', 'b']
  else if c = '\x0c' then ['\\', 'f']
  else if c.toNat < 0x20 then
    ['\\', 'u', '0', '0'] ++ (if c.toNat < 0x10 then ['0'] else []) ++ Text.hex c.toNat
  else [c]

def jsonText (s : String) : String :=
  String.ofList ('"' :: s.toList.flatMap jsonChar ++ ['"'])

/-- Items between brackets, each on a line of its own. -/
def jsonLines (opening closing indent : String) (items : List String) : String :=
  if items.isEmpty then opening ++ closing
  else
    opening ++ "\n" ++ ",\n".intercalate (items.map fun i => indent ++ "  " ++ i) ++ "\n" ++
      indent ++ closing

/-- A named value of an object. -/
def jsonField (name value : String) : String :=
  jsonText name ++ ": " ++ value

def Entry.text (e : Entry) : String :=
  jsonLines "\x7b" "\x7d" "  "
    [jsonField "directory" (jsonText e.directory),
     jsonField "file" (jsonText e.file),
     jsonField "output" (jsonText e.output),
     jsonField "arguments" (jsonLines "[" "]" "    " (e.arguments.map jsonText))]

def text (entries : List Entry) : String :=
  jsonLines "[" "]" "" (entries.map Entry.text) ++ "\n"

def fileName : String := "compile_commands.json"

def ofRule (e : Emission) (id : RuleId) : Path × String :=
  (((e.rule id).workingFolder e.buildRoot).join ⟨fileName⟩, text (entries e id))

def ofAll (e : Emission) : Path × String :=
  let compiled := e.order.filter fun id => (e.rule id).cc?.isSome
  (e.buildRoot.join ⟨fileName⟩, text (compiled.flatMap (entries e)))

end Buildwright.CompilationDatabase
