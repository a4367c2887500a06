import Buildwright.Yaml.Screen
import Buildwright.Yaml.Token

/-!
# Nodes of a YAML document

A document is one node: a scalar, a sequence or a mapping. Nodes are built from the
tokens of the text; an alias becomes a copy of the node that its anchor names. How deep
nodes are nested and how much aliases copy is bounded.

## Contents

* `Node` — the tree;
* `Builder` — the tokens that are left and the nodes with anchors;
* `Node.ofText?` — the only document of a text.
-/

namespace Buildwright.Yaml

/-- A node of a document. -/
inductive Node where
  /-- A scalar; `style` tells whether it may stand for something else than text, and
      `tag` what it was declared to be. -/
  | scalar (style : Style) (tag : Tag) (text : String)
  | sequence (items : List Node)
  | mapping (entries : List (Node × Node))
deriving Repr, Inhabited

namespace Node

/-- What stands for a node that is left out. -/
def missing : Node := .scalar .plain .absent "~"

end Node

/-- What is left to read, what has been named, and what has been counted. -/
structure Builder where
  tokens : List Token
  handles : List (String × String) := []
  /-- The numbers of anchors, the latest first. -/
  anchors : List (String × Nat) := []
  /-- The nodes of the anchors that are complete, each with its size. -/
  named : List (Nat × Node × Nat) := []
  /-- The number of collections around the next node. -/
  depth : Nat := 0
  /-- The size of what has been read: 1 for a scalar, 2 for a collection. -/
  size : Nat := 0
  aliases : Nat := 0
  /-- The size of what aliases have copied. -/
  copied : Nat := 0
deriving Repr, Inhabited

namespace Builder

/-- The greatest number of collections in one another. -/
def maxDepth : Nat := 2000

/-- The greatest size of what aliases copy. -/
def maxCopied : Nat := 1000000

/-- The least number of aliases that counts as many. -/
def manyAliases : Nat := 100

/-- The greatest number of aliases for every anchor, if there are many. -/
def aliasesPerAnchor : Nat := 10

def next (b : Builder) : Token := b.tokens.headD .broken

/-- Step over the next token. -/
def skip (b : Builder) : Builder := { b with tokens := b.tokens.drop 1 }

def countScalar (b : Builder) : Builder := { b with size := b.size + 1 }

/-- A node that is left out. -/
def missing (b : Builder) : Node × Builder := (.missing, b.countScalar)

def enter? (b : Builder) : Option Builder :=
  if b.depth < maxDepth then some { b with depth := b.depth + 1, size := b.size + 2 } else none

def leave (b : Builder) : Builder := { b with depth := b.depth - 1 }

/-- The anchor and the tag in front of a node, in either order. -/
structure Properties where
  anchor : Option String := none
  tag : Tag := .absent
deriving DecidableEq, Repr

/-- Read the anchor and the tag in front of a node. -/
def properties? (b : Builder) : Option (Properties × Builder) :=
  match b.next with
  | .anchor name =>
    match b.skip.next with
    | .tag handle suffix =>
      (Tag.resolve? b.handles handle suffix).map fun t => (⟨some name, t⟩, b.skip.skip)
    | _ => some (⟨some name, .absent⟩, b.skip)
  | .tag handle suffix =>
    (Tag.resolve? b.handles handle suffix).map fun t =>
      match b.skip.next with
      | .anchor name => (⟨some name, t⟩, b.skip.skip)
      | _ => (⟨none, t⟩, b.skip)
  | _ => some ({}, b)

/-- Give the anchor of a node its number. From here on the name stands for this node,
    also inside of it. -/
def number (b : Builder) (p : Properties) : Builder :=
  match p.anchor with
  | some name => { b with anchors := (name, b.anchors.length) :: b.anchors }
  | none => b

/-- Remember a node that is complete. `start` is the state at its beginning, where its
    anchor had no number yet. -/
def remember (b : Builder) (p : Properties) (start : Builder) (n : Node) : Builder :=
  if p.anchor.isSome then
    { b with named := (start.anchors.length, n, b.size - start.size) :: b.named }
  else b

/-- The copy of a node that is complete. -/
def copy? (b : Builder) (name : String) : Option (Node × Builder) := do
  let (n, size) ← b.named.lookup (← b.anchors.lookup name)
  let copied := b.copied + size
  if copied > maxCopied then none
  else return (n, { b with aliases := b.aliases + 1, copied, size := b.size + size })

/-- Whether there are too many aliases for the anchors. -/
def hasTooManyAliases (b : Builder) : Bool :=
  b.aliases ≥ manyAliases && b.aliases > aliasesPerAnchor * b.anchors.length

/-- A scalar, which is complete. An empty text in quotes that has an anchor counts as
    plain. -/
def scalar? (p : Properties) (style : Style) (text : String) : Option Node :=
  match style with
  | .unindented => none
  | .quoted => some (.scalar (if p.anchor.isSome && text = "" then .plain else .quoted) p.tag text)
  | style => some (.scalar style p.tag text)

/-- Whether no node stands before the token in a block mapping. -/
def endsMappingSlot : Token → Bool
  | .key | .value | .blockEnd => true
  | _ => false

/-- Whether no node stands before the token between curly brackets. -/
def endsFlowSlot : Token → Bool
  | .value | .flowEntry | .flowMappingEnd => true
  | _ => false

/-- Whether no node stands before the token in a single pair. -/
def endsPairSlot : Token → Bool
  | .value | .flowEntry | .flowSequenceEnd => true
  | _ => false

mutual

/-- Read one node. `block` allows the node to be a block collection, `dashes` allows
    it to be a block sequence that is not indented. -/
def node? : Nat → (block dashes : Bool) → Builder → Option (Node × Builder)
  | 0, _, _, _ => none
  | fuel + 1, block, dashes, start =>
    match start.next with
    | .alias name => start.skip.copy? name
    | _ => do
      let (p, b) ← start.properties?
      let b := b.number p
      let (n, b) ←
        match b.next with
        | .scalar style text => (scalar? p style text).map fun n => (n, b.skip.countScalar)
        | .flowSequence => do flowSequence? fuel (← b.skip.enter?) true []
        | .flowMapping => do flowMapping? fuel (← b.skip.enter?) true []
        | .blockSequence => do if block then blockSequence? fuel (← b.skip.enter?) [] else none
        | .blockMapping => do if block then blockMapping? fuel (← b.skip.enter?) [] else none
        | .entry => do if dashes then dashSequence? fuel (← b.enter?) [] else emptyNode? p b
        | _ => emptyNode? p b
      return (n, b.remember p start n)

/-- A node that has nothing but an anchor or a tag. -/
def emptyNode? (p : Properties) (b : Builder) : Option (Node × Builder) :=
  if p = {} then none else some (.scalar .plain p.tag "", b.countScalar)

def blockSequence? : Nat → Builder → List Node → Option (Node × Builder)
  | 0, _, _ => none
  | fuel + 1, b, items =>
    match b.next with
    | .blockEnd => some (.sequence items.reverse, b.skip.leave)
    | .entry => do
      let b := b.skip
      let (n, b) ←
        match b.next with
        | .entry | .blockEnd => some b.missing
        | _ => node? fuel true false b
      blockSequence? fuel b (n :: items)
    | _ => none

/-- The entries of a block sequence that is not indented. -/
def dashSequence? : Nat → Builder → List Node → Option (Node × Builder)
  | 0, _, _ => none
  | fuel + 1, b, items =>
    match b.next with
    | .entry => do
      let b := b.skip
      let (n, b) ←
        match b.next with
        | .entry | .key | .value | .blockEnd => some b.missing
        | _ => node? fuel true false b
      dashSequence? fuel b (n :: items)
    | .broken => none
    | _ => some (.sequence items.reverse, b.leave)

def blockMapping? : Nat → Builder → List (Node × Node) → Option (Node × Builder)
  | 0, _, _ => none
  | fuel + 1, b, entries =>
    match b.next with
    | .blockEnd => some (.mapping entries.reverse, b.skip.leave)
    | .key => do
      let b := b.skip
      let (k, b) ←
        if endsMappingSlot b.next then some b.missing else node? fuel true true b
      let (v, b) ← blockValue? fuel b
      blockMapping? fuel b ((k, v) :: entries)
    | .value => do
      let (k, b) := b.missing
      let (v, b) ← blockValue? fuel b
      blockMapping? fuel b ((k, v) :: entries)
    | _ => none

/-- The value of an entry of a block mapping. -/
def blockValue? : Nat → Builder → Option (Node × Builder)
  | 0, _ => none
  | fuel + 1, b =>
    match b.next with
    | .value =>
      let b := b.skip
      if endsMappingSlot b.next then some b.missing else node? fuel true true b
    | .broken => none
    | _ => some b.missing

/-- The entries of a sequence between brackets. -/
def flowSequence? : Nat → Builder → (first : Bool) → List Node → Option (Node × Builder)
  | 0, _, _, _ => none
  | fuel + 1, b, first, items =>
    if b.next = .flowSequenceEnd then some (.sequence items.reverse, b.skip.leave)
    else if !first && b.next ≠ .flowEntry then none
    else
      let b := if first then b else b.skip
      match b.next with
      | .flowSequenceEnd => some (.sequence items.reverse, b.skip.leave)
      | .key => do
        let b ← b.skip.enter?
        let (k, b) ←
          if endsPairSlot b.next then some b.skip.missing else node? fuel false false b
        let (v, b) ←
          match b.next with
          | .value =>
            let b := b.skip
            match b.next with
            | .flowEntry | .flowSequenceEnd => some b.missing
            | _ => node? fuel false false b
          | .broken => none
          | _ => some b.missing
        flowSequence? fuel b.leave false (.mapping [(k, v)] :: items)
      | _ => do
        let (n, b) ← node? fuel false false b
        flowSequence? fuel b false (n :: items)

/-- The entries of a mapping between brackets. -/
def flowMapping? : Nat → Builder → (first : Bool) → List (Node × Node) → Option (Node × Builder)
  | 0, _, _, _ => none
  | fuel + 1, b, first, entries =>
    if b.next = .flowMappingEnd then some (.mapping entries.reverse, b.skip.leave)
    else if !first && b.next ≠ .flowEntry then none
    else
      let b := if first then b else b.skip
      match b.next with
      | .flowMappingEnd => some (.mapping entries.reverse, b.skip.leave)
      | .key => do
        let b := b.skip
        let (k, b) ←
          if endsFlowSlot b.next then some b.missing else node? fuel false false b
        let (v, b) ← flowValue? fuel b
        flowMapping? fuel b false ((k, v) :: entries)
      | .value => do
        let (k, b) := b.missing
        let (v, b) ← flowValue? fuel b
        flowMapping? fuel b false ((k, v) :: entries)
      | _ => do
        let (k, b) ← node? fuel false false b
        let (v, b) := b.missing
        flowMapping? fuel b false ((k, v) :: entries)

/-- The value of an entry between curly brackets. -/
def flowValue? : Nat → Builder → Option (Node × Builder)
  | 0, _ => none
  | fuel + 1, b =>
    match b.next with
    | .value =>
      let b := b.skip
      match b.next with
      | .flowEntry | .flowMappingEnd => some b.missing
      | _ => node? fuel false false b
    | .broken => none
    | _ => some b.missing

end

/-- Skip the marks of documents that have ended. -/
def skipEnds : List Token → List Token
  | .documentEnd :: rest => skipEnds rest
  | tokens => tokens

/-- Read the directives of a document, of which one may be a version. What a handle stands
    for is known only from the last directive. -/
def directives? : List Token → Bool → List (String × String) →
    Option (List (String × String) × List Token)
  | .version :: rest, seen, _ => if seen then none else directives? rest true []
  | .tagPrefix handle text :: rest, seen, _ => directives? rest seen [(handle, text)]
  | tokens, _, handles => some (handles, tokens)

/-- Read the content of a document. -/
def content? (handles : List (String × String)) (tokens : List Token) (explicit : Bool) :
    Option (Node × List Token) :=
  let empty : Bool :=
    match tokens.headD .broken with
    | .version | .tagPrefix .. | .documentStart | .documentEnd | .finish => true
    | _ => false
  if explicit && empty then some (Node.missing, tokens)
  else do
    let (n, b) ← node? (4 * tokens.length + 4) true false { tokens, handles }
    if b.hasTooManyAliases then none else return (n, b.tokens)

/-- Read the first document; none if there is no document at all. -/
def document? (tokens : List Token) : Option (Option Node × List Token) := do
  let tokens := skipEnds tokens
  match tokens.headD .broken with
  | .finish => return (none, tokens)
  | .broken => none
  | .version | .tagPrefix .. | .documentStart =>
    let (handles, tokens) ← directives? tokens false []
    match tokens with
    | .documentStart :: tokens =>
      let (n, tokens) ← content? handles tokens true
      return (some n, tokens)
    | _ => none
  | _ =>
    let (n, tokens) ← content? [] tokens false
    return (some n, tokens)

/-- Whether nothing but broken text follows a document. A document that follows is
    refused; what is no document is not looked at. -/
def isLast (tokens : List Token) : Bool :=
  match tokens.headD .broken with
  | .documentEnd =>
    match (skipEnds tokens).headD .broken with
    | .finish | .broken => true
    | .version | .tagPrefix .. =>
      match directives? (skipEnds tokens) false [] with
      | some (_, .documentStart :: _) => false
      | _ => true
    | _ => false
  | .documentStart => false
  | .version | .tagPrefix .. => false
  | _ => true

end Builder

namespace Node

/-- The only document of a text; `some none` if the text has none. -/
def ofText? (text : String) : Option (Option Node) := do
  let text :=
    match text.toList with
    | '\ufeff' :: rest => String.ofList rest
    | _ => text
  let (n, rest) ← if Screen.isRefused text then none else Builder.document? (tokens text)
  match n with
  | none => return none
  | some n => if rest.headD .broken ≠ .broken && Builder.isLast rest then return some n else none

end Node

end Buildwright.Yaml
