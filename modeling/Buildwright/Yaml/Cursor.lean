/-!
# Cursors in a YAML text

A cursor is a place in a text together with what follows it. Line and column decide
about indentation, so every step keeps them up to date.

## Contents

* classes of characters, as predicates on what stands at a cursor;
* `Cursor` and its steps;
* `Cursor.toLineEnd?` — over blanks and a comment.
-/

namespace Buildwright.Yaml

def isSpaceOrTab (c : Char) : Bool := c = ' ' || c = '\t'

/-- Line feed and carriage return. -/
def isBreak (c : Char) : Bool := c = '\n' || c = '\r'

/-- The characters that end words between brackets. -/
def isFlowMark (c : Char) : Bool :=
  c = ',' || c = '[' || c = ']' || c = '\x7b' || c = '\x7d'

/-- Whether what is next ends a line: a break, or nothing. -/
def endsLine : Option Char → Bool
  | none => true
  | some c => isBreak c

/-- Whether what is next ends a word: a blank, a break, or nothing. -/
def endsWord : Option Char → Bool
  | none => true
  | some c => isBreak c || isSpaceOrTab c

/-- Whether what is next is a flow mark. -/
def isFlowNext : Option Char → Bool
  | none => false
  | some c => isFlowMark c

/-- A place in a text. -/
structure Cursor where
  rest : List Char
  /-- The number of characters before the cursor. -/
  index : Nat := 0
  line : Nat := 0
  column : Nat := 0
  /-- Whether only blanks stand before the cursor on its line. -/
  fresh : Bool := true
deriving DecidableEq, Repr, Inhabited

namespace Cursor

def next (c : Cursor) : Option Char := c.rest.head?

/-- The character `n` places further on. -/
def after (c : Cursor) (n : Nat) : Option Char := c.rest[n]?

/-- Step over one character of a line that leaves the line fresh. -/
def skipSpace (c : Cursor) : Cursor :=
  { c with rest := c.rest.drop 1, index := c.index + 1, column := c.column + 1 }

/-- Step over `n` characters of a line. -/
def skip (c : Cursor) (n : Nat) : Cursor :=
  { c with rest := c.rest.drop n, index := c.index + n, column := c.column + n, fresh := false }

/-- Step over a line break: a line feed, a carriage return, or both together. -/
def skipBreak (c : Cursor) : Cursor :=
  let n := if c.next = some '\r' && c.after 1 = some '\n' then 2 else 1
  { rest := c.rest.drop n, index := c.index + n, line := c.line + 1, column := 0, fresh := true }

/-- Step over a comment, up to the end of the line. -/
def skipComment (c : Cursor) : Cursor :=
  let n := (c.rest.takeWhile fun x => !isBreak x).length
  { c with rest := c.rest.drop n, index := c.index + n, column := c.column + n }

/-- Whether three equal marks and the end of a word stand at the cursor. -/
def isTriple (c : Cursor) (mark : Char) : Bool :=
  c.rest.take 3 = [mark, mark, mark] && endsWord (c.after 3)

/-- Whether the mark that begins a document stands at the cursor. -/
def atDocumentStart (c : Cursor) : Bool := c.isTriple '-'

/-- Whether the mark that ends a document stands at the cursor. -/
def atDocumentEnd (c : Cursor) : Bool := c.isTriple '.'

/-- Whether a document mark stands at the cursor. -/
def atDocumentMark (c : Cursor) : Bool := c.atDocumentStart || c.atDocumentEnd

/-- What was skipped before the end of a line or the next token. -/
structure Skipped where
  tab : Bool
  space : Bool
deriving DecidableEq, Repr

/-- Skip blanks and then a comment. A comment needs a blank before it. With
    `tabs = false` a tab is not skipped. -/
def toLineEnd? (c : Cursor) (tabs : Bool) : Option (Cursor × Skipped) :=
  let blanks := c.rest.takeWhile fun x => x = ' ' || (tabs && x = '\t')
  let n := blanks.length
  let c : Cursor := { c with rest := c.rest.drop n, index := c.index + n, column := c.column + n }
  if c.next = some '#' then
    if blanks = [] then none else some (c.skipComment, ⟨blanks.any (· = '\t'), blanks.any (· = ' ')⟩)
  else some (c, ⟨blanks.any (· = '\t'), blanks.any (· = ' ')⟩)

end Cursor

end Buildwright.Yaml
