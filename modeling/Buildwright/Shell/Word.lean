/-!
# Words for a shell

A word is written so that a shell reads back exactly its characters. It is cut into
chunks from left to right, each as long as one way of quoting allows; a chunk is left
bare if it can be, else put between single quotes, else between double quotes.

## Contents

* `Ways` — the ways of quoting that a chunk still allows;
* `chunks` — the cut;
* `quote` — the written word.
-/

namespace Buildwright.Shell

/-- The ways in which characters can be quoted. -/
structure Ways where
  bare : Bool
  single : Bool
  double : Bool
deriving DecidableEq, Repr, Inhabited

namespace Ways

def any (w : Ways) : Bool := w.bare || w.single || w.double

/-- The ways that two sets have in common. -/
def and (v w : Ways) : Ways := ⟨v.bare && w.bare, v.single && w.single, v.double && w.double⟩

def all : Ways := ⟨true, true, true⟩

end Ways

/-- Whether a character means only itself outside quotes. -/
def isBare (c : Char) : Bool :=
  c.isAlphanum || c = '+' || c = '-' || c = '.' || c = '/' || c = ':' || c = '@' || c = ']' ||
    c = '_'

/-- The ways in which a character can be quoted inside a chunk. -/
def waysOf (c : Char) : Ways where
  bare := isBare c
  single := c ≠ '\'' && c ≠ '\\' && c ≠ '^'
  double := c.toNat ≠ 0x60 && c ≠ '$' && c ≠ '!' && c ≠ '^'

/-- The ways in which a chunk can be quoted that begins with a character. -/
def waysOfFirst (c : Char) : Ways :=
  if c = '^' then ⟨false, true, false⟩ else waysOf c

/-- A part of a word with the ways in which it can be quoted. -/
structure Chunk where
  ways : Ways
  text : List Char
deriving DecidableEq, Repr, Inhabited

/-- Cut the rest of a word, of which `current` is the chunk so far. -/
def chunksFrom (current : Chunk) : List Char → List Chunk
  | [] => [current]
  | c :: rest =>
    let ways := current.ways.and (waysOf c)
    if ways.any then chunksFrom ⟨ways, current.text ++ [c]⟩ rest
    else current :: chunksFrom ⟨waysOfFirst c, [c]⟩ rest

/-- Cut a word into chunks. -/
def chunks : List Char → List Chunk
  | [] => []
  | c :: rest => chunksFrom ⟨waysOfFirst c, [c]⟩ rest

/-- A character between double quotes. -/
def inDouble (c : Char) : List Char :=
  if c = '"' ∨ c = '\\' ∨ c = '$' ∨ c.toNat = 0x60 then ['\\', c] else [c]

def Chunk.written (c : Chunk) : List Char :=
  if c.ways.bare then c.text
  else if c.ways.single then '\'' :: c.text ++ ['\'']
  else '"' :: c.text.flatMap inDouble ++ ['"']

/-- A word as it is written. A word with a null character has no written form and is
    left as it is. -/
def quote (word : List Char) : List Char :=
  if word.contains '\x00' then word
  else if word = [] then ['\'', '\'']
  else (chunks word).flatMap Chunk.written

end Buildwright.Shell
