import Buildwright.Configuration.Layer
import Buildwright.Configuration.Value

/-!
# Settings from the environment

A variable whose name begins with `JK_`, in any case, gives a value to the key that the
rest of its name spells; two underscores, or a point, lead into a map. Keys that mean
nothing are passed over, except those of the toolchain. A list of tools stands for a whole
toolchain, so it hides that of the file.

## Contents

* `keysOf?` — the path of keys that a name spells;
* `entries` — the variables as one map;
* `Layer.ofEnvironment` — the layer of the variables.
-/

namespace Buildwright.Configuration

namespace Environment

/-- What the names of variables begin with, in lower case. -/
def start : List Char := "jk_".toList

/-- Two underscores become a point. -/
def parted : List Char → List Char
  | '_' :: '_' :: rest => '.' :: parted rest
  | c :: rest => c :: parted rest
  | [] => []

/-- The path of keys that a name spells; none if the name is of another program or a key
    of it is empty. -/
def keysOf? (name : String) : Option (List String) := do
  let rest ← start.isPrefixOf? ((Text.trim name.toList).map Char.toLower)
  let keys := (Text.trim (parted rest)).splitOn '.'
  if keys.any List.isEmpty then none else some (keys.map String.ofList)

/-- The variables as one map. Later ones are put on top of earlier ones. -/
def entries (environment : List (String × String)) : List (String × Value) :=
  environment.foldl (fun below (name, text) =>
    match keysOf? name with
    | some keys =>
      match (Value.ofText text).nest keys with
      | .map entries => Value.mergeEntries below entries
      | _ => below
    | none => below) []

def text : Value → Checked String
  | .text s => .ok s
  | _ => .error "expected a text"

def texts : Value → Checked (List String)
  | .list items => items.mapM text
  | _ => .error "expected a list of texts"

/-- A value that is a number and not negative. -/
def count : Value → Checked Nat
  | .integer n => if n < 0 then .error "expected a number that is not negative" else .ok n.toNat
  | _ => .error "expected a number that is not negative"

/-- Nothing for null, and otherwise what the value is read as. -/
def orNull {α : Type} (read : Value → Checked α) : Value → Checked (Option α)
  | .null => .ok none
  | value => (read value).map some

/-- The values of tools, and what is wrong beside them. -/
structure Tools where
  values : List (String × Value) := []
  /-- Whether the other tools are those that are built in. -/
  complete : Bool := false
  defect : Option String := none

/-- The value of the toolchain: a map of tools, or a list of them in the order of their
    keys. -/
def tools : Option Value → Tools
  | none => {}
  | some (.map entries) =>
    match entries.find? fun e => e.1 ∉ toolKeys with
    | some (key, _) => { defect := some ("unknown tool " ++ key) }
    | none => { values := entries }
  | some (.list items) =>
    if items.length ≤ toolKeys.length then { values := toolKeys.zip items, complete := true }
    else { defect := some "too many tools" }
  | some _ => { defect := some "expected a map of tools" }

/-- The tool of a key, if the environment gives one. -/
def Tools.tool? (t : Tools) (key : String) (builtIn : String) : Option (Checked String) :=
  match t.values.lookup key with
  | some value => some (text value)
  | none => if t.complete then some (.ok builtIn) else none

end Environment

open Environment

/-- The layer of the variables of an environment. -/
def Layer.ofEnvironment (environment : List (String × String)) : Layer :=
  let entries := entries environment
  let tools := tools (entries.lookup "toolchain")
  let builtIn : Settings := {}
  let path (v : Value) : Checked Path := (text v).map Path.mk
  { buildRoot := (entries.lookup "build_root").map path
    buildTypes := (entries.lookup "build_types").map fun v => do buildTypesOf (← texts v)
    formats := (entries.lookup "formats").map texts
    jobs := (entries.lookup "jobs").map (orNull count)
    buildFile := (entries.lookup "build_file").map text
    builtinRoot := (entries.lookup "builtin_root").map (orNull path)
    cc := tools.tool? "cc" builtIn.toolchain.cc
    cxx := tools.tool? "cxx" builtIn.toolchain.cxx
    ar := tools.tool? "ar" builtIn.toolchain.ar
    defect := tools.defect }

end Buildwright.Configuration
