import Buildwright.Text.Blank
import Buildwright.Yaml.Tag

/-!
# Tokens of a YAML text

Tokens make the structure of a text explicit: indentation becomes tokens that begin
and end collections, and a key that is only recognised by the colon behind it gets a
token in front of it after the fact. The tokens of a text end in `finish`, or in
`broken` where the text stops being one.

## Contents

* `Token`;
* `Lexer` — the cursor with indentation, pending keys and brackets;
* `Lexer.step?` — one token or several;
* `tokens` — all tokens of a text.
-/

namespace Buildwright.Yaml

/-- How a scalar is written. -/
inductive Style where
  | plain
  | quoted
  | block
  /-- A block of folded lines that are not indented, which no node can be. -/
  | unindented
deriving DecidableEq, Repr, Inhabited

/-- The tokens of a text. -/
inductive Token where
  | finish
  /-- The text is malformed from here on. -/
  | broken
  | version
  | tagPrefix (handle text : String)
  | documentStart
  | documentEnd
  | blockSequence
  | blockMapping
  | blockEnd
  | flowSequence
  | flowSequenceEnd
  | flowMapping
  | flowMappingEnd
  | entry
  | flowEntry
  | key
  | value
  | alias (name : String)
  | anchor (name : String)
  | tag (handle suffix : String)
  | scalar (style : Style) (text : String)
deriving DecidableEq, Repr, Inhabited

/-- A token that would be a key if a colon followed. -/
structure PendingKey where
  possible : Bool := false
  /-- Whether it has to be a key because of its indentation. -/
  required : Bool := false
  /-- Its place among the tokens. -/
  number : Nat := 0
  index : Nat := 0
  line : Nat := 0
  column : Nat := 0
deriving DecidableEq, Repr, Inhabited

/-- The state of the lexer. -/
structure Lexer where
  cursor : Cursor
  /-- The tokens so far, the last one first. -/
  tokens : List Token := []
  /-- The column that the lines of the innermost block have to reach. -/
  indent : Int := -1
  /-- The indentations around it, each with the mark whether leaving it ends a block. -/
  indents : List (Int × Bool) := []
  /-- The number of open brackets. -/
  depth : Nat := 0
  /-- Pending keys by bracket, the innermost first. -/
  keys : List PendingKey := [{}]
  keyAllowed : Bool := true
  /-- The index at which a colon needs no blank behind it. -/
  adjacent : Nat := 0
  /-- Whether the latest collection begun between brackets is a mapping. -/
  inMapping : Bool := false
  /-- For every open square bracket, the depth at which a single pair was begun in it. -/
  pairs : List (Option Nat) := []
  /-- The column of the latest token if it is an anchor or a tag. -/
  propertyColumn : Option Nat := none
deriving Repr, Inhabited

namespace Lexer

/-- The greatest number of open brackets. -/
def maxDepth : Nat := 255

/-- Whether the lexer is between brackets. -/
def inFlow (l : Lexer) : Bool := l.depth ≠ 0

def column (l : Lexer) : Int := l.cursor.column

/-- Add a token at the end. -/
def push (l : Lexer) (t : Token) : Lexer :=
  { l with tokens := t :: l.tokens, propertyColumn := none }

/-- Add a token at place `number`. -/
def insert (l : Lexer) (number : Nat) (t : Token) : Lexer :=
  let later := l.tokens.length - number
  { l with tokens := l.tokens.take later ++ t :: l.tokens.drop later }

/-- The pending key of the innermost bracket. -/
def pending (l : Lexer) : PendingKey := l.keys.headD {}

/-- Change the pending key of the innermost bracket. -/
def setPending (l : Lexer) (k : PendingKey) : Lexer :=
  { l with keys := k :: l.keys.drop 1 }

/-- Remember that the next token may be a key. -/
def saveKey (l : Lexer) : Lexer :=
  if l.keyAllowed then
    l.setPending {
      possible := true
      required := !l.inFlow && l.indent = l.column && (l.indents.head?.any (·.2))
      number := l.tokens.length
      index := l.cursor.index
      line := l.cursor.line
      column := l.cursor.column }
  else l

/-- Forget the pending key; a key that is required may not be forgotten. -/
def dropKey? (l : Lexer) : Option Lexer :=
  let k := l.pending
  if k.possible && k.required then none else some (l.setPending { k with possible := false })

/-- A pending key outside brackets ends with its line, and after 1024 characters. -/
def isStale (l : Lexer) (k : PendingKey) : Bool :=
  k.possible && !l.inFlow && (k.line < l.cursor.line || k.index + 1024 < l.cursor.index)

/-- Forget the pending keys that are stale. -/
def dropStale? (l : Lexer) : Option Lexer :=
  if l.keys.any fun k => l.isStale k && k.required then none
  else
    some { l with
      keys := l.keys.map fun k => if l.isStale k then { k with possible := false } else k }

/-- End the blocks that are indented beyond `column`. -/
def unindentFrom (column : Int) : List (Int × Bool) → Int → List Token → Int × List (Int × Bool) × List Token
  | [], indent, tokens => (indent, [], tokens)
  | (outer, ends) :: rest, indent, tokens =>
    if indent > column then
      unindentFrom column rest outer (if ends then .blockEnd :: tokens else tokens)
    else (indent, (outer, ends) :: rest, tokens)

/-- End the blocks that are indented beyond `column`; there are none between brackets. -/
def unindent (l : Lexer) (column : Int) : Lexer :=
  if l.inFlow then l
  else
    let (indent, indents, tokens) := unindentFrom column l.indents l.indent l.tokens
    { l with
      indent, indents, tokens
      propertyColumn := if tokens.length = l.tokens.length then l.propertyColumn else none }

/-- Drop the indentation that is only required of continuation lines. -/
def dropSoftFrom : List (Int × Bool) → Int → Int × List (Int × Bool)
  | (outer, false) :: rest, _ => dropSoftFrom rest outer
  | indents, indent => (indent, indents)

/-- Drop the indentations that are only required of continuation lines. -/
def dropSoft (l : Lexer) : Lexer :=
  let (indent, indents) := dropSoftFrom l.indents l.indent
  { l with indent, indents }

/-- Require one more column of continuation lines. -/
def softIndent (l : Lexer) : Lexer :=
  if !l.inFlow && (l.indents.head?.any (·.2)) then
    { l with indents := (l.indent, false) :: l.indents, indent := l.indent + 1 }
  else l

/-- Begin a block at a column, if it is indented further than the one around it. The
    token that begins it is added at place `number`, or at the end. -/
def indentTo (l : Lexer) (column : Int) (number : Option Nat) (t : Token) : Lexer :=
  if l.inFlow then l
  else
    let l :=
      match l.indents with
      | (outer, false) :: rest =>
        if l.indent ≤ column then { l with indent := outer, indents := rest } else l
      | _ => l
    if l.indent < column then
      let l := { l with indents := (l.indent, true) :: l.indents, indent := column }
      match number with
      | some n => l.insert n t
      | none => l.push t
    else l

/-- Skip blanks and a comment up to the end of the line. -/
def toLineEnd? (l : Lexer) : Option Lexer :=
  (l.cursor.toLineEnd? true).map fun p => { l with cursor := p.1 }

/-- Skip blanks, comments and line breaks up to the next token. A tab may not stand in
    the indentation of a block. -/
def toToken? : Nat → Lexer → Option Lexer
  | 0, l => some l
  | fuel + 1, l =>
    match l.cursor.next with
    | none => some l
    | some c =>
      if c = '\t' && !l.indents.isEmpty && l.cursor.fresh && l.column < l.indent then
        match l.toLineEnd? with
        | none => none
        | some l => if endsLine l.cursor.next then toToken? fuel l else none
      else if isSpaceOrTab c then toToken? fuel { l with cursor := l.cursor.skipSpace }
      else if isBreak c then
        toToken? fuel { l with
          cursor := l.cursor.skipBreak
          keyAllowed := l.keyAllowed || !l.inFlow }
      else if c = '#' then toToken? fuel { l with cursor := l.cursor.skipComment }
      else some l

/-- Skip blanks, comments and line breaks up to the next token. -/
def skipToToken? (l : Lexer) : Option Lexer :=
  toToken? (l.cursor.rest.length + 1) l

/-- End a single pair that was begun in the innermost square bracket. -/
def endPair (l : Lexer) : Lexer :=
  match l.pairs with
  | some depth :: rest =>
    if depth = l.depth then
      { (l.push .flowMappingEnd) with inMapping := false, pairs := none :: rest }
    else l
  | _ => l

def openBracket? (l : Lexer) (t : Token) : Option Lexer :=
  let l := l.saveKey.softIndent
  if l.depth ≥ maxDepth then none
  else
    let l := { l with
      keys := {} :: l.keys
      depth := l.depth + 1
      keyAllowed := true
      cursor := l.cursor.skip 1
      inMapping := l.inMapping || t == Token.flowMapping
      pairs := if t = Token.flowMapping then l.pairs else none :: l.pairs }
    l.toLineEnd?.map fun l => l.push t

/-- A closing bracket. One that closes nothing is a token as well. -/
def closeBracket? (l : Lexer) (t : Token) : Option Lexer := do
  let l ← l.dropKey?
  let l := if t = .flowSequenceEnd then
      let l := l.endPair
      { l with pairs := l.pairs.drop 1 }
    else l
  let l := { l with
    depth := l.depth - 1
    keys := if l.inFlow then l.keys.drop 1 else l.keys
    keyAllowed := false
    cursor := l.cursor.skip 1 }
  let l ← l.toLineEnd?
  let l := if l.inFlow then { l with adjacent := l.cursor.index } else l
  return l.push t

def comma? (l : Lexer) : Option Lexer := do
  let l ← l.dropKey?
  let l := ({ l with keyAllowed := true }).endPair
  let l ← ({ l with cursor := l.cursor.skip 1 }).toLineEnd?
  return l.push .flowEntry

/-- The dash of a sequence entry. -/
def dash? (l : Lexer) : Option Lexer := do
  if l.inFlow || !l.keyAllowed then none
  else if l.cursor.column = 0 && l.propertyColumn = some 0 && l.indent > -1 then none
  else
    let column := l.column
    let l := ({ l with cursor := l.cursor.skip 1 }).indentTo column none .blockSequence
    let (cursor, skipped) ← l.cursor.toLineEnd? true
    if skipped.tab && cursor.next = some '-' && endsWord (cursor.after 1) then none
    else
      let l := { l with cursor }
      let l :=
        if l.cursor.next.any isBreak || isFlowNext l.cursor.next then l.softIndent else l
      let l ← l.dropKey?
      return ({ l with keyAllowed := true }).push .entry

/-- Skip spaces, comments and line breaks behind a question mark; there has to be some
    white space. -/
def afterQuestion : Nat → Lexer → Bool → Lexer × Bool
  | 0, l, seen => (l, seen)
  | fuel + 1, l, seen =>
    match l.cursor.next with
    | none => (l, seen)
    | some c =>
      if c = ' ' then afterQuestion fuel { l with cursor := l.cursor.skipSpace } true
      else if isBreak c then
        afterQuestion fuel { l with
          cursor := l.cursor.skipBreak
          keyAllowed := l.keyAllowed || !l.inFlow } true
      else if c = '#' then afterQuestion fuel { l with cursor := l.cursor.skipComment } seen
      else (l, seen)

/-- The question mark of a key. -/
def question? (l : Lexer) : Option Lexer := do
  if !l.inFlow && !l.keyAllowed then none
  else
    let l := if l.inFlow then { l with inMapping := true }
      else l.indentTo l.column none .blockMapping
    let l ← l.dropKey?
    let l := { l with keyAllowed := !l.inFlow, cursor := l.cursor.skip 1 }
    let (l, seen) := afterQuestion (l.cursor.rest.length + 1) l false
    if !seen || l.cursor.next = some '\t' then none else return l.push .key

/-- Whether a tab may stand between a colon and what follows. -/
def afterColon? (c : Cursor) : Option Cursor :=
  if c.next = some '\t' then
    match c.toLineEnd? true with
    | none => none
    | some (c, skipped) =>
      if !skipped.space && c.next.any (fun x => x = '-' || x = '_' || x.isAlphanum) then none
      else some c
  else some c

/-- The colon of a value. The pending key, if there is one, becomes a key. -/
def colon? (l : Lexer) : Option Lexer := do
  let k := l.pending
  let start := l.cursor
  let pair := !l.pairs.isEmpty && !l.inMapping
  let l := if pair then { l with pairs := some l.depth :: l.pairs.drop 1 } else l
  let cursor ← afterColon? (l.cursor.skip 1)
  let l := { l with cursor }
  if k.possible then
    let l := l.insert k.number .key
    if pair && k.line < start.line then none
    else
      let l := if pair then l.insert k.number .flowMapping else l
      let l := l.indentTo k.column (some k.number) .blockMapping
      let l := l.softIndent.setPending { k with possible := false }
      return ({ l with keyAllowed := false }).push .value
  else
    let l := if pair then l.push .flowMapping else l
    if !l.inFlow && !l.keyAllowed then none
    else
      let l := if l.inFlow then l else l.indentTo start.column none .blockMapping
      let l := l.softIndent
      return ({ l with keyAllowed := !l.inFlow }).push .value

/-- A colon between brackets without a blank behind it. -/
def flowColon? (l : Lexer) : Option Lexer :=
  let after := l.cursor.after 1
  if l.cursor.index ≠ l.adjacent && (after = some '[' || after = some '\x7b') then none
  else l.colon?

/-- Whether a character can stand in the name of an anchor. -/
def isAnchorChar (c : Char) : Bool :=
  !isBreak c && !isSpaceOrTab c && !isFlowMark c && c ≠ '\ufeff'

def anchor? (l : Lexer) (make : String → Token) : Option Lexer :=
  let l := { l.saveKey with keyAllowed := false }
  let name := (l.cursor.rest.drop 1).takeWhile isAnchorChar
  if name = [] then none
  else
    let t := make (String.ofList name)
    let column := l.cursor.column
    let l := ({ l with cursor := l.cursor.skip (name.length + 1) }).push t
    some { l with propertyColumn := if t = .anchor (String.ofList name) then some column else none }

def tag? (l : Lexer) : Option Lexer := do
  let l := { l.saveKey with keyAllowed := false }
  let column := l.cursor.column
  let (handle, suffix, n) ←
    if l.cursor.after 1 = some '<' then
      let text := (l.cursor.rest.drop 2).takeWhile Tag.isVerbatimChar
      if (l.cursor.rest.drop (text.length + 2)).head? = some '>' then
        some ("", text, text.length + 3)
      else none
    else
      let name := (l.cursor.rest.drop 1).takeWhile Tag.isHandleChar
      let after := l.cursor.rest.drop (name.length + 1)
      if after.head? = some '!' then
        let suffix := (after.drop 1).takeWhile Tag.isSuffixChar
        if suffix = [] then none
        else
          some (String.ofList ('!' :: name ++ ['!']), suffix, name.length + suffix.length + 2)
      else
        let suffix := name ++ after.takeWhile Tag.isSuffixChar
        if suffix = [] then some ("", ['!'], 1) else some ("!", suffix, suffix.length + 1)
  let suffix ← Tag.unescape? suffix
  let cursor := l.cursor.skip n
  if endsWord cursor.next || (l.inFlow && isFlowNext cursor.next) then
    let l := ({ l with cursor }).push (.tag handle (String.ofList suffix))
    return { l with propertyColumn := some column }
  else none

def plain? (l : Lexer) : Option Lexer := do
  let l := ({ l.saveKey with keyAllowed := false }).dropSoft
  let (text, cursor) ← Yaml.plain? l.inFlow (l.indent + 1) l.cursor
  return ({ l with cursor, keyAllowed := cursor.fresh }).push (.scalar .plain text)

/-- A quoted scalar. A colon right behind it needs no blank. -/
def quoted? (l : Lexer) (single : Bool) : Option Lexer := do
  let l := { l.saveKey with keyAllowed := false }
  let (text, cursor) ← Yaml.quoted? l.inFlow single l.indent l.cursor
  let l ← ({ l with cursor }).skipToToken?
  return ({ l with adjacent := l.cursor.index }).push (.scalar .quoted text)

def block? (l : Lexer) (literal : Bool) : Option Lexer := do
  let l := ({ l.saveKey with keyAllowed := true }).dropSoft
  let (text, column, cursor) ← Yaml.block? literal l.indent l.cursor
  let style := if !literal && column = 0 && !Text.isBlankText text then .unindented else .block
  return ({ l with cursor }).push (.scalar style text)

/-- The mark that begins or ends a document. -/
def documentMark? (l : Lexer) (t : Token) : Option Lexer := do
  let l ← (l.unindent (-1)).dropKey?
  return ({ l with keyAllowed := false, cursor := l.cursor.skip 3 }).push t

/-- The mark that ends a document, and the end of its line. -/
def documentEnd? (l : Lexer) : Option Lexer := do
  let l ← l.documentMark? .documentEnd
  let l ← l.toLineEnd?
  if endsLine l.cursor.next then return l else none

/-- The number of a version: at most nine digits. -/
def versionNumber? (cs : List Char) : Option (List Char) :=
  let n := (cs.takeWhile Char.isDigit).length
  if 0 < n ∧ n ≤ 9 then some (cs.drop n) else none

/-- The version of a directive, and what follows it. -/
def version? (cs : List Char) : Option (Token × List Char) := do
  match ← versionNumber? (cs.dropWhile isSpaceOrTab) with
  | '.' :: rest => return (.version, ← versionNumber? rest)
  | _ => none

/-- The handle of a directive, and what follows it. -/
def handle? : List Char → Option (List Char × List Char)
  | '!' :: rest =>
    let name := rest.takeWhile Tag.isHandleChar
    match rest.drop name.length with
    | '!' :: rest => some ('!' :: name ++ ['!'], rest)
    | rest => if name = [] then some (['!'], rest) else none
  | _ => none

/-- The handle of a directive with what it stands for, and what follows. -/
def tagPrefix? (cs : List Char) : Option (Token × List Char) := do
  let (handle, rest) ← handle? (cs.dropWhile isSpaceOrTab)
  let rest := rest.dropWhile isSpaceOrTab
  let text := rest.takeWhile Tag.isVerbatimChar
  if !text.head?.any fun c => c = '!' || Tag.isSuffixChar c then none
  else
    let rest := rest.drop text.length
    if endsWord rest.head? then
      return (.tagPrefix (String.ofList handle) (String.ofList (← Tag.unescape? text)), rest)
    else none

/-- A directive line. A directive of another name says nothing. -/
def directive? (l : Lexer) : Option Lexer := do
  let l ← (l.unindent (-1)).dropKey?
  let name := (l.cursor.rest.drop 1).takeWhile Tag.isHandleChar
  let rest := l.cursor.rest.drop (name.length + 1)
  if name = [] || !endsWord rest.head? then none
  else
    let (t, rest) ←
      match String.ofList name with
      | "YAML" => version? rest
      | "TAG" => tagPrefix? rest
      | _ => some (.tagPrefix "" "", rest.dropWhile (!isBreak ·))
    let (cursor, _) ← (l.cursor.skip (l.cursor.rest.length - rest.length)).toLineEnd? true
    if endsLine cursor.next then
      let cursor := if cursor.rest.isEmpty then cursor else cursor.skipBreak
      return ({ l with keyAllowed := false, cursor }).push t
    else none

/-- The end of the text. -/
def finish? (l : Lexer) : Option Lexer :=
  if l.keys.any fun k => k.required && k.possible then none
  else
    let l := ({ l with keys := l.keys.map fun _ => {} }).unindent (-1)
    some (({ l with keyAllowed := false }).push .finish)

/-- The token that begins with the character `c`. -/
def tokenAt? (l : Lexer) (c : Char) : Option Lexer :=
  let after := l.cursor.after 1
  match c with
  | '[' => l.openBracket? .flowSequence
  | '\x7b' => l.openBracket? .flowMapping
  | ']' => l.closeBracket? .flowSequenceEnd
  | '\x7d' => l.closeBracket? .flowMappingEnd
  | ',' => l.comma?
  | '*' => l.anchor? .alias
  | '&' => l.anchor? .anchor
  | '!' => l.tag?
  | '\'' => l.quoted? true
  | '"' => l.quoted? false
  | '-' => if endsWord after then l.dash? else l.plain?
  | '?' => if endsWord after then l.question? else l.plain?
  | ':' =>
    if endsWord after then l.colon?
    else if l.inFlow && (isFlowNext after || l.cursor.index = l.adjacent) then l.flowColon?
    else l.plain?
  | '|' => if l.inFlow then l.plain? else l.block? true
  | '>' => if l.inFlow then l.plain? else l.block? false
  | '%' | '@' => none
  | c => if c.toNat = 0x60 then none else l.plain?

/-- Read on until there is at least one more token. -/
def step? (l : Lexer) : Option Lexer := do
  let l ← l.skipToToken?
  let l ← l.dropStale?
  let l := l.unindent l.column
  match l.cursor.next with
  | none => l.finish?
  | some c =>
    if l.cursor.column = 0 && c = '%' then l.directive?
    else if l.cursor.column = 0 && l.cursor.atDocumentStart then l.documentMark? .documentStart
    else if l.cursor.column = 0 && l.cursor.atDocumentEnd then l.documentEnd?
    else if l.column < l.indent then none
    else l.tokenAt? c

/-- The tokens before the first one that may yet turn out to be a key. -/
def settled (l : Lexer) : List Token :=
  let count := (l.keys.filter (·.possible)).foldl (fun n k => min n k.number) l.tokens.length
  l.tokens.drop (l.tokens.length - count)

def run : Nat → Lexer → List Token
  | 0, l => (.broken :: l.tokens).reverse
  | fuel + 1, l =>
    if l.tokens.head? = some .finish then l.tokens.reverse
    else
      match l.step? with
      | some l => run fuel l
      | none => (.broken :: (l.dropStale?.getD l).settled).reverse

end Lexer

/-- The tokens of a text. A null character ends it. -/
def tokens (text : String) : List Token :=
  let rest := text.toList.takeWhile (· ≠ '\x00')
  Lexer.run (2 * rest.length + 2) { cursor := { rest } }

end Buildwright.Yaml
