import Buildwright.Configuration.Layer
import Buildwright.Number.Integer
import Buildwright.Text.Blank
import Buildwright.Yaml.Tree

/-!
# The configuration file

The file is a mapping from keys to values. Every key can be left out or be left without
a value; a key that means nothing is refused, and so is a value of the wrong shape,
whatever other layers say.

## Contents

* `text`, `texts`, `count` — the values of trees;
* `Layer.ofFields` — the layer of the fields of a file;
* `Layer.ofFile` — the layer of a text.
-/

namespace Buildwright.Configuration

namespace File

/-- The text of a scalar, as it is written. -/
def text : Yaml.Tree → Checked String
  | .scalar _ tag s =>
    match tag.textOf? s with
    | some s => .ok s
    | none => .error "expected a text"
  | _ => .error "expected a text"

/-- The texts of the items of a sequence. -/
def texts : Yaml.Tree → Checked (List String)
  | .sequence items => items.mapM text
  | _ => .error "expected a list of texts"

/-- The number that a scalar stands for, whatever it is declared to be. -/
def count : Yaml.Tree → Checked Nat
  | .scalar _ _ text =>
    let digits := Text.trim text.toList
    match digits.head?, Number.integer? (String.ofList digits) with
    | some '-', _ | _, none => .error "expected a number that is not negative"
    | _, some n => .ok n.toNat
  | _ => .error "expected a number that is not negative"

/-- The value of a field that is there and has one. -/
def field? (fields : List (String × Yaml.Tree)) (key : String) : Option Yaml.Tree :=
  (fields.lookup key).filter (!·.isNothing)

/-- The fields of a tree; there may be no others than those of `keys`. -/
def fieldsAmong (keys : List String) (t : Yaml.Tree) : Checked (List (String × Yaml.Tree)) :=
  match t.fields? with
  | none => .error "expected a mapping"
  | some fields =>
    match fields.find? fun f => f.1 ∉ keys with
    | some (key, _) => .error ("unknown key " ++ key)
    | none => .ok fields

def keys : List String :=
  ["build_root", "build_types", "formats", "jobs", "build_file", "builtin_root", "toolchain"]

end File

open File

/-- The value of a key, if it is given; a value of the wrong shape is refused. -/
def given {α : Type} (fields : List (String × Yaml.Tree)) (key : String)
    (read : Yaml.Tree → Checked α) : Checked (Option (Checked α)) :=
  match field? fields key with
  | none => .ok none
  | some tree => (read tree).map fun value => some (.ok value)

def Layer.ofFields (fields : List (String × Yaml.Tree)) : Checked Layer := do
  let tools ←
    match field? fields "toolchain" with
    | none => pure []
    | some tree => fieldsAmong toolKeys tree
  -- A tool that is mentioned has to be named.
  let tool (key : String) : Checked (Option (Checked String)) :=
    match tools.lookup key with
    | none => .ok none
    | some tree => (text tree).map fun value => some (.ok value)
  let path (tree : Yaml.Tree) : Checked Path := (text tree).map Path.mk
  return {
    buildRoot := ← given fields "build_root" path
    buildTypes := ← given fields "build_types" fun tree => do buildTypesOf (← texts tree)
    formats := ← given fields "formats" texts
    jobs := ← given fields "jobs" fun tree => (count tree).map some
    buildFile := ← given fields "build_file" text
    builtinRoot := ← given fields "builtin_root" fun tree => (path tree).map some
    cc := ← tool "cc"
    cxx := ← tool "cxx"
    ar := ← tool "ar" }

/-- The layer of the text of a file. A text without a document gives nothing. -/
def Layer.ofFile (content : String) : Checked Layer :=
  if Text.isBlankText content then .ok {}
  else
    match Yaml.Node.ofText? content with
    | none => .error "not a YAML document"
    | some none => .ok {}
    | some (some node) => do Layer.ofFields (← fieldsAmong keys (.ofNode node))

end Buildwright.Configuration
