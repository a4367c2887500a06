import Buildwright.Yaml.Cursor

/-!
# Scalars of a YAML text

A scalar is written plain, between quotes, or as a block of indented lines. Reading
one takes the cursor at its first character and gives its text with the cursor
behind it; nothing if the scalar is malformed.

## Contents

* `Gap` — the blanks and line breaks inside a scalar, and how they fold;
* `plain?`, `quoted?`, `block?` — the three ways of writing.
-/

namespace Buildwright.Yaml

/-- What stands between two words of a scalar. -/
structure Gap where
  /-- Blanks on the line of the first word. -/
  blanks : List Char := []
  /-- Whether the first line break has been met. -/
  broken : Bool := false
  /-- The number of further line breaks. -/
  breaks : Nat := 0
deriving DecidableEq, Repr, Inhabited

namespace Gap

/-- The text of a gap: one line break folds into a space, further ones are kept,
    and blanks count only on a line that goes on. -/
def text (g : Gap) : List Char :=
  if g.broken then
    if g.breaks = 0 then [' '] else List.replicate g.breaks '\n'
  else g.blanks

/-- Take one more line break. -/
def addBreak (g : Gap) : Gap :=
  if g.broken then { g with breaks := g.breaks + 1 } else { g with blanks := [], broken := true }

end Gap

/-! ## Plain scalars -/

/-- Whether a plain scalar can go on with `c`, which `after` follows. -/
def canBePlain (inFlow : Bool) (c : Char) (after : Option Char) : Bool :=
  if c = ':' then !(endsWord after || (inFlow && isFlowNext after))
  else !(inFlow && isFlowMark c)

/-- The longest word of a plain scalar at the front of a text. -/
def plainWord (inFlow : Bool) : List Char → List Char
  | [] => []
  | c :: rest =>
    if isSpaceOrTab c || isBreak c || !canBePlain inFlow c rest.head? then []
    else c :: plainWord inFlow rest

/-- Skip the gap after a word of a plain scalar whose lines have to be indented by
    `indent`. A tab may not stand in the indentation of a line that has content. -/
def plainGap? (indent : Int) : Nat → Cursor → Gap → Option (Cursor × Gap)
  | 0, _, _ => none
  | fuel + 1, c, g =>
    match c.next with
    | none => some (c, g)
    | some x =>
      if isSpaceOrTab x then
        if !g.broken then
          plainGap? indent fuel c.skipSpace { g with blanks := g.blanks ++ [x] }
        else if x = '\t' && (c.column : Int) < indent then
          match c.toLineEnd? true with
          | some (c, _) => if endsLine c.next then plainGap? indent fuel c g else none
          | none => none
        else plainGap? indent fuel c.skipSpace g
      else if isBreak x then plainGap? indent fuel c.skipBreak g.addBreak
      else some (c, g)

/-- The words of a plain scalar from the cursor on; `text` holds what was read
    before, `gap` what stands between it and the cursor. -/
def plainWords? (inFlow : Bool) (indent : Int) :
    Nat → Cursor → Gap → List Char → Option (List Char × Cursor)
  | 0, _, _, _ => none
  | fuel + 1, c, gap, text =>
    if (c.fresh && c.atDocumentMark) || c.next = some '#' then some (text, c)
    else if inFlow && c.next = some '-' && isFlowNext (c.after 1) then none
    else
      let word := plainWord inFlow c.rest
      let text := if word = [] then text else text ++ gap.text ++ word
      let c := if word = [] then c else c.skip word.length
      match c.next with
      | none => some (text, c)
      | some x =>
        if !(isSpaceOrTab x || isBreak x) then some (text, c)
        else
          match plainGap? indent (c.rest.length + 1) c {} with
          | none => none
          | some (c, gap) =>
            if !inFlow && (c.column : Int) < indent then some (text, c)
            else plainWords? inFlow indent fuel c gap text

/-- Read a plain scalar whose further lines have to be indented by `indent`. -/
def plain? (inFlow : Bool) (indent : Int) (c : Cursor) : Option (String × Cursor) :=
  if inFlow && (c.column : Int) < indent then none
  else
    match plainWords? inFlow indent (c.rest.length + 1) c {} [] with
    | some (text, c) => if text = [] then none else some (String.ofList text, c)
    | none => none

/-! ## Quoted scalars -/

/-- The value of a hexadecimal digit. -/
def hexDigit? (c : Char) : Option Nat :=
  if c.isDigit then some (c.toNat - 48)
  else if 'a' ≤ c ∧ c ≤ 'f' then some (c.toNat - 87)
  else if 'A' ≤ c ∧ c ≤ 'F' then some (c.toNat - 55)
  else none

/-- The number written with hexadecimal digits. -/
def hexNumber? (digits : List Char) : Option Nat :=
  digits.foldlM (fun n d => (hexDigit? d).map (16 * n + ·)) 0

def charOf? (n : Nat) : Option Char :=
  if n.isValidChar then some (Char.ofNat n) else none

/-- The character written with the first `n` hexadecimal digits of a text. -/
def hexChar? (n : Nat) (rest : List Char) : Option (Char × Nat) :=
  let digits := rest.take n
  if digits.length = n then
    ((hexNumber? digits).bind charOf?).map fun c => (c, n)
  else none

/-- The character that an escape stands for, from what follows the backslash, and
    the number of characters that it takes. -/
def escape? : List Char → Option (Char × Nat)
  | [] => none
  | 'x' :: rest => (hexChar? 2 rest).map fun p => (p.1, p.2 + 1)
  | 'u' :: rest => (hexChar? 4 rest).map fun p => (p.1, p.2 + 1)
  | 'U' :: rest => (hexChar? 8 rest).map fun p => (p.1, p.2 + 1)
  | c :: _ =>
    let named : List (Char × Nat) :=
      [('0', 0), ('a', 7), ('b', 8), ('t', 9), ('\t', 9), ('n', 10), ('v', 11), ('f', 12),
       ('r', 13), ('e', 27), (' ', 32), ('"', 34), ('/', 47), ('\\', 92), ('N', 0x85),
       ('_', 0xA0), ('L', 0x2028), ('P', 0x2029)]
    (named.lookup c).map fun n => (Char.ofNat n, 1)

/-- Read the words of a quoted scalar up to a blank, a break or the closing quote.
    The last component tells whether the words end in an escaped line break, which
    is skipped. -/
def quotedWord? (single : Bool) : Nat → Cursor → List Char → Option (List Char × Cursor × Bool)
  | 0, _, _ => none
  | fuel + 1, c, text =>
    match c.rest with
    | [] => some (text, c, false)
    | x :: rest =>
      if isSpaceOrTab x || isBreak x then some (text, c, false)
      else if single then
        if x = '\'' then
          if rest.head? = some '\'' then quotedWord? single fuel (c.skip 2) (text ++ ['\''])
          else some (text, c, false)
        else quotedWord? single fuel (c.skip 1) (text ++ [x])
      else if x = '"' then some (text, c, false)
      else if x = '\\' then
        if !rest.isEmpty && endsLine rest.head? then some (text, (c.skip 1).skipBreak, true)
        else
          match escape? rest with
          | some (y, n) => quotedWord? single fuel (c.skip (n + 1)) (text ++ [y])
          | none => none
      else quotedWord? single fuel (c.skip 1) (text ++ [x])

/-- Skip the gap after a word of a quoted scalar. -/
def quotedGap? (indent : Int) : Nat → Cursor → Gap → Option (Cursor × Gap)
  | 0, _, _ => none
  | fuel + 1, c, g =>
    match c.next with
    | none => some (c, g)
    | some x =>
      if isSpaceOrTab x then
        if g.broken then
          if x = '\t' && (c.column : Int) < indent then none
          else quotedGap? indent fuel c.skipSpace g
        else quotedGap? indent fuel c.skipSpace { g with blanks := g.blanks ++ [x] }
      else if isBreak x then quotedGap? indent fuel c.skipBreak g.addBreak
      else some (c, g)

/-- The rest of a quoted scalar; the closing quote included. -/
def quotedWords? (single : Bool) (indent : Int) :
    Nat → Cursor → List Char → Option (List Char × Cursor)
  | 0, _, _ => none
  | fuel + 1, c, text =>
    if c.column = 0 && c.atDocumentMark then none
    else if c.rest.isEmpty || (c.column : Int) < indent then none
    else
      match quotedWord? single (c.rest.length + 1) c text with
      | none => none
      | some (text, c, escaped) =>
        if c.next = some (if single then '\'' else '"') then some (text, c.skip 1)
        else
          match quotedGap? indent (c.rest.length + 1) c { broken := escaped } with
          | none => none
          | some (c, gap) =>
            let fold :=
              if escaped then List.replicate gap.breaks '\n' else gap.text
            quotedWords? single indent fuel c (text ++ fold)

/-- Whether `next` may follow a quoted scalar that began on the line `line`. -/
def mayFollowQuoted (inFlow : Bool) (line : Nat) (c : Cursor) : Bool :=
  match c.next with
  | none => true
  | some x =>
    isBreak x || (inFlow && (x = ',' || x = '\x7d' || x = ']')) ||
      (x = ':' && (inFlow || line = c.line))

/-- Read a quoted scalar, with the blanks and the comment behind it. -/
def quoted? (inFlow single : Bool) (indent : Int) (c : Cursor) : Option (String × Cursor) :=
  match quotedWords? single indent (c.rest.length + 1) (c.skip 1) [] with
  | none => none
  | some (text, after) =>
    match after.toLineEnd? true with
    | none => none
    | some (after, _) =>
      if mayFollowQuoted inFlow c.line after then some (String.ofList text, after) else none

/-! ## Block scalars -/

/-- What becomes of the line breaks at the end of a block. -/
inductive Chomping where
  /-- They are dropped. -/
  | strip
  /-- One is kept. -/
  | clip
  /-- All are kept. -/
  | keep
deriving DecidableEq, Repr

/-- The chomping indicator of a character. -/
def Chomping.ofChar? : Char → Option Chomping
  | '-' => some .strip
  | '+' => some .keep
  | _ => none

/-- The indicators after the mark of a block: indentation, 0 if none is given, and
    chomping, in either order. An indentation of 0 may not be given. -/
def blockHeader? (c : Cursor) : Option (Nat × Chomping × Cursor) :=
  let digit (c : Cursor) : Option (Nat × Cursor) :=
    match c.next with
    | some d =>
      if d = '0' then none else if d.isDigit then some (d.toNat - 48, c.skip 1) else some (0, c)
    | none => some (0, c)
  let chomping (c : Cursor) : Chomping × Cursor :=
    match c.next.bind Chomping.ofChar? with
    | some k => (k, c.skip 1)
    | none => (.clip, c)
  match c.next.bind Chomping.ofChar? with
  | some k => (digit (c.skip 1)).map fun (n, c) => (n, k, c)
  | none =>
    match digit c with
    | none => none
    | some (0, c) => some (0, .clip, c)
    | some (n, c) => let (k, c) := chomping c; some (n, k, c)

/-- Skip the indentation of the next line with content, at most `indent` columns;
    lines before it are counted. -/
def blockIndent (indent : Nat) : Nat → Cursor → Nat → Cursor × Nat
  | 0, c, breaks => (c, breaks)
  | fuel + 1, c, breaks =>
    let n := (c.rest.takeWhile (· = ' ')).length
    let n := min n (indent - c.column)
    let c := (List.range n).foldl (fun c _ => c.skipSpace) c
    match c.next with
    | some x => if isBreak x then blockIndent indent fuel c.skipBreak (breaks + 1) else (c, breaks)
    | none => (c, breaks)

/-- Skip empty lines and the indentation of the first line with content; the greatest
    column that blanks reach is returned as well. -/
def blockFirstIndent : Nat → Cursor → Nat → Nat → Cursor × Nat × Nat
  | 0, c, breaks, column => (c, breaks, column)
  | fuel + 1, c, breaks, column =>
    let n := (c.rest.takeWhile (· = ' ')).length
    let c := (List.range n).foldl (fun c _ => c.skipSpace) c
    let column := max column c.column
    match c.next with
    | some x =>
      if isBreak x then blockFirstIndent fuel c.skipBreak (breaks + 1) column
      else (c, breaks, column)
    | none => (c, breaks, column)

/-- The lines of a block as they have been read. -/
structure BlockText where
  text : List Char := []
  /-- Whether a line break is waiting behind the last line. -/
  broken : Bool := false
  /-- The number of empty lines behind it. -/
  breaks : Nat := 0
  /-- Whether the last line began with a blank. -/
  blank : Bool := false

namespace BlockText

/-- The line breaks that are waiting. -/
def tail (b : BlockText) : List Char := if b.broken then ['\n'] else []

/-- Add a line. A folded block joins lines that do not begin with a blank. -/
def addLine (literal : Bool) (b : BlockText) (line : List Char) : BlockText :=
  let blank := line.head?.any isSpaceOrTab
  let empty := List.replicate b.breaks '\n'
  let between :=
    if !literal && b.broken && !b.blank && !blank then
      if b.breaks = 0 then [' '] else empty
    else b.tail ++ empty
  { text := b.text ++ between ++ line, broken := false, breaks := 0, blank }

end BlockText

/-- The lines of a block that are indented by `indent`. -/
def blockLines (literal : Bool) (indent : Nat) :
    Nat → Cursor → BlockText → BlockText × Cursor
  | 0, c, b => (b, c)
  | fuel + 1, c, b =>
    if c.column ≠ indent || c.rest.isEmpty || (indent = 0 && c.atDocumentEnd) then (b, c)
    else
      let line := c.rest.takeWhile fun x => !isBreak x
      let b := b.addLine literal line
      let c := if line = [] then c else c.skip line.length
      if c.rest.isEmpty then (b, c)
      else
        let (c, breaks) := blockIndent indent (c.rest.length + 1) c.skipBreak 0
        blockLines literal indent fuel c { b with broken := true, breaks }

/-- Read a block scalar in a context that is indented by `context`. The column of its
    lines is returned with its text. -/
def block? (literal : Bool) (context : Int) (c : Cursor) : Option (String × Nat × Cursor) := do
  let start := c.line
  let (increment, chomping, c) ← blockHeader? (c.skip 1)
  let (c, _) ← c.toLineEnd? true
  if !endsLine c.next then none
  else
    let broken := !c.rest.isEmpty
    let c := if broken then c.skipBreak else c
    if c.next = some '\t' then none
    else
      let fuel := c.rest.length + 1
      let (c, breaks, indent) :=
        if increment = 0 then
          let (c, breaks, column) := blockFirstIndent fuel c 0 0
          let indent := max column (context + 1).toNat
          (c, breaks, if context > 0 then max indent 1 else indent)
        else
          let indent := if context ≥ 0 then (context + increment).toNat else increment
          let (c, breaks) := blockIndent indent fuel c 0
          (c, breaks, indent)
      if c.rest.isEmpty then
        let text :=
          if chomping = .strip || c.line = start then []
          else if chomping = .keep && breaks ≠ 0 then List.replicate breaks '\n'
          else if broken then ['\n'] else []
        return (String.ofList text, indent, c)
      else if c.column < indent && (c.column : Int) > context then none
      else
        let (b, c) := blockLines literal indent (c.rest.length + 1) c { breaks }
        let last := if c.rest.isEmpty && c.column ≥ max indent 1 then ['\n'] else []
        let text :=
          match chomping with
          | .strip => b.text
          | .clip => b.text ++ b.tail ++ last
          | .keep => b.text ++ b.tail ++ last ++ List.replicate b.breaks '\n'
        return (String.ofList text, indent, c)

end Buildwright.Yaml
