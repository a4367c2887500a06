import Buildwright.Yaml.Node

/-!
# Trees: nodes without merge keys

The entries of other mappings can be added to a mapping under the merge key. An entry of
the mapping itself goes before one that is added, and of those the first counts; what is
hidden in this way is never looked at, so it may be malformed.

## Contents

* `Tree` — a node whose merge keys are resolved;
* `Tree.ofNode` — the tree of a node;
* `Tree.isNothing`, `Tree.fields?` — the reading of mappings with fixed keys.
-/

namespace Buildwright.Yaml

/-- A key. The tag belongs to it, so the same text under two tags is two keys. -/
structure Key where
  tag : Tag
  text : String
deriving DecidableEq, Repr, Inhabited

/-- A node whose merge keys are resolved. -/
inductive Tree where
  /-- A mapping with a key that is no scalar or stands twice, or with a merge key that
      adds nothing that could be added. -/
  | malformed
  | scalar (style : Style) (tag : Tag) (text : String)
  | sequence (items : List Tree)
  | mapping (entries : List (Key × Tree))
deriving Repr, Inhabited

namespace Tree

/-! ## Merging -/

/-- An entry before it is merged; it has no key if what stands there is no scalar. -/
abbrev Entry := Option Key × Tree

/-- Whether a plain text stands for a missing value. -/
def isNothingText (text : String) : Bool :=
  text = "" || text = "~" || String.ofList (text.toList.map Char.toLower) = "null"

/-- Whether a node is the key under which the entries of other mappings are added. -/
def isMergeKey : Node → Bool
  | .scalar .plain .absent text => text = "<<"
  | _ => false

def keyOf? : Node → Option Key
  | .scalar _ tag text => some ⟨tag, text⟩
  | _ => none

/-- The entries with those that are added, without those whose key is there. -/
def withAdded? (entries : List (Key × Tree)) : List Entry → Option (List (Key × Tree))
  | [] => some entries
  | (none, _) :: _ => none
  | (some key, value) :: rest =>
    if entries.any (·.1 = key) then withAdded? entries rest
    else withAdded? (entries ++ [(key, value)]) rest

/-- The mapping of entries that it has itself and entries that are added. -/
def merged? (own added : List Entry) : Option Tree := do
  let own ← own.mapM fun e => e.1.map fun key => (key, e.2)
  if (own.map Prod.fst).Nodup then return mapping (← withAdded? own added) else none

/-- What a node is, and what it adds under a merge key, if it can stand there. -/
structure Reading where
  tree : Tree
  added : Option (List Entry)
deriving Inhabited

mutual

/-- Read a node. Under a merge key a mapping adds its entries and a missing value adds
    nothing; a sequence adds what its items add, and the last item goes first. -/
def read : Node → Reading
  | .scalar style tag text =>
    ⟨scalar style tag text, if style = .plain && isNothingText text then some [] else none⟩
  | .sequence items =>
    let (trees, added) := readItems items
    ⟨sequence trees, added⟩
  | .mapping entries =>
    let (own, added) := readEntries entries
    ⟨(added.bind (merged? own)).getD malformed, added.map (own ++ ·)⟩

def readItems : List Node → List Tree × Option (List Entry)
  | [] => ([], some [])
  | item :: rest =>
    let (trees, added) := readItems rest
    let ⟨tree, more⟩ := read item
    (tree :: trees, do return (← added) ++ (← more))

/-- Read the entries of a mapping: those that it has itself, and those that it adds. The
    last merge key goes first. -/
def readEntries : List (Node × Node) → List Entry × Option (List Entry)
  | [] => ([], some [])
  | (key, value) :: rest =>
    let (own, added) := readEntries rest
    let ⟨tree, more⟩ := read value
    if isMergeKey key then (own, do return (← added) ++ (← more))
    else ((keyOf? key, tree) :: own, added)

end

def ofNode (n : Node) : Tree := (read n).tree

/-! ## Mappings with fixed keys -/

/-- Whether a tree stands for a missing value. -/
def isNothing : Tree → Bool
  | .scalar style tag text =>
    tag = .null || (style = .plain && isNothingText text) || (style = .block && text = "")
  | _ => false

/-- The fields of a mapping: its entries by the texts of their keys, each of which stands
    once. A plain text for a missing value has no fields. -/
def fields? : Tree → Option (List (String × Tree))
  | .mapping entries => do
    let fields ← entries.mapM fun (key, value) =>
      (key.tag.textOf? key.text).map fun name => (name, value)
    if (fields.map Prod.fst).Nodup then return fields else none
  | .scalar .plain _ text => if isNothingText text then some [] else none
  | _ => none

end Tree

end Buildwright.Yaml
