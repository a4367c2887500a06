import Buildwright.Entries
import Buildwright.Number.Shortest
import Buildwright.Text.Blank
import Buildwright.Yaml.Tree

/-!
# Documents

A document is the untyped content of a declaration file: lists and maps of texts,
numbers and flags. A plain scalar is a flag, an integer or a finite number if it
looks like one, and a text otherwise; every other scalar is a text. Of two keys of a map
with the same text the later one counts.

## Contents

* `Document` — the values, and the names of their kinds;
* `Document.ofScalar?`, `Document.ofTree?` — the meaning of YAML trees;
* `Document.ofText?` — the document of a text.
-/

namespace Buildwright

/-- A number of a document. -/
inductive DocumentNumber where
  | integer (value : Int)
  | floating (value : Number.Floating)
deriving DecidableEq, Repr, Inhabited

namespace DocumentNumber

def text : DocumentNumber → String
  | integer n => toString n
  | floating f => f.text

end DocumentNumber

/-- The content of a declaration file. -/
inductive Document where
  | null
  | flag (value : Bool)
  | number (value : DocumentNumber)
  | text (value : String)
  | list (items : List Document)
  | map (entries : List (String × Document))
deriving Repr, Inhabited

namespace Document

/-- The name of the kind, as messages spell it. -/
def kind : Document → String
  | null => "null"
  | flag _ => "bool"
  | number _ => "number"
  | text _ => "string"
  | list _ => "list"
  | map _ => "map"

/-- The flag that a word stands for, whose case does not count. -/
def flagOf? (word : String) : Option Bool :=
  let word := String.ofList (word.toList.map Char.toLower)
  if word ∈ ["true", "yes", "y", "on"] then some true
  else if word ∈ ["false", "no", "n", "off"] then some false
  else none

/-- What a plain scalar stands for. Blanks around a flag or a number do not count; a
    number that is not finite stays a text, of one spelling. -/
def ofPlain (s : String) : Document :=
  let word := String.ofList (Text.trim s.toList)
  match flagOf? word with
  | some b => flag b
  | none =>
    match Number.integer? word with
    | some n => number (.integer n)
    | none =>
      match Number.Floating.Value.ofText? word with
      | some (.finite f) => number (.floating f)
      | some (.infinite negative) => text (if negative then "-.inf" else ".inf")
      | some .undefined => text ".nan"
      | none => text s

/-- What a scalar stands for. A tag of text does not keep a plain scalar from standing for
    a flag or a number. -/
def ofScalar? (style : Yaml.Style) (tag : Yaml.Tag) (s : String) : Option Document :=
  if tag = .null then some null
  else (tag.textOf? s).map fun s => if style = .plain then ofPlain s else text s

mutual

/-- What a tree stands for. -/
def ofTree? : Yaml.Tree → Option Document
  | .malformed => none
  | .scalar style tag s => ofScalar? style tag s
  | .sequence items => (ofTrees? items).map list
  | .mapping entries =>
    (ofEntries? entries).map fun es => map (es.foldl (fun es e => setEntry e.1 e.2 es) [])

def ofTrees? : List Yaml.Tree → Option (List Document)
  | [] => some []
  | t :: ts => do return (← ofTree? t) :: (← ofTrees? ts)

/-- What the entries of a mapping stand for. -/
def ofEntries? : List (Yaml.Key × Yaml.Tree) → Option (List (String × Document))
  | [] => some []
  | (key, value) :: rest => do
    return (← key.tag.textOf? key.text, ← ofTree? value) :: (← ofEntries? rest)

end

/-- The document of a text: null if the text has none, nothing if it is malformed. -/
def ofText? (s : String) : Option Document :=
  match Yaml.Node.ofText? s with
  | none => none
  | some none => some null
  | some (some n) => ofTree? (.ofNode n)

end Document

end Buildwright
