import Buildwright.Text.Base64
import Buildwright.Yaml.Scalar

/-!
# Tags

A tag in front of a node declares what the node is. It is written in full, or as a
handle with a suffix in which bytes may be escaped. Only what a scalar can be declared to
be has a meaning; all other tags say nothing.

## Contents

* `Tag` — what tags declare;
* `Tag.unescape?` — the text of a tag without its escapes;
* `Tag.resolve?` — the tag of a handle and a suffix;
* `Tag.textOf?` — the text that a tagged scalar stands for.
-/

namespace Buildwright.Yaml

/-- What a node is declared to be. -/
inductive Tag where
  | absent
  | text
  | integer
  | float
  | flag
  | null
  | sequence
  | mapping
  | time
  /-- Text in base 64. -/
  | binary
  | other
deriving DecidableEq, Repr, Inhabited

namespace Tag

/-! ## The written form -/

/-- The number of bytes of a character that begins with `byte`. -/
def width? (byte : Nat) : Option Nat :=
  if byte < 0x80 then some 1
  else if byte / 32 = 6 then some 2
  else if byte / 16 = 14 then some 3
  else if byte / 8 = 30 then some 4
  else none

/-- The text with its escapes resolved, each of which is one byte. `missing` bytes of a
    character are still to come, and `code` is the number of those before. -/
def unescapeFrom? (missing code : Nat) : List Char → Option (List Char)
  | [] => if missing = 0 then some [] else none
  | '%' :: high :: low :: rest => do
    let byte ← hexNumber? [high, low]
    let (missing, code) ←
      if missing = 0 then (width? byte).map fun n => (n - 1, byte)
      else if byte / 64 = 2 then some (missing - 1, 256 * code + byte)
      else none
    if missing = 0 then return (← charOf? code) :: (← unescapeFrom? 0 0 rest)
    else unescapeFrom? missing code rest
  | c :: rest =>
    if missing ≠ 0 || c = '%' then none else (unescapeFrom? 0 0 rest).map (c :: ·)

/-- The text with its escapes resolved. -/
def unescape? (cs : List Char) : Option (List Char) :=
  unescapeFrom? 0 0 cs

/-- Whether a character can stand in the handle of a tag. -/
def isHandleChar (c : Char) : Bool := c.isAlphanum || c = '_' || c = '-'

/-- Whether a character can stand in a tag as a whole. -/
def isSuffixChar (c : Char) : Bool :=
  c.isAlphanum || c = '-' || "#;/?:@&=+$_.~*'()%".toList.contains c

/-- Whether a character can stand in a tag between angle brackets. -/
def isVerbatimChar (c : Char) : Bool :=
  isSuffixChar c || "[],!".toList.contains c

/-! ## The meaning -/

/-- The names of the tags that say something. -/
def names : List (String × Tag) :=
  [("str", text), ("int", integer), ("float", float), ("bool", flag), ("null", null),
   ("seq", sequence), ("map", mapping), ("timestamp", time), ("time", time),
   ("binary", binary)]

/-- What two exclamation marks stand for, unless they are declared. -/
def core : String := "tag:yaml.org,2002:"

def ofSpelling (spelling : String) : Tag :=
  let byName (entry : String × Tag) : Option Tag :=
    if spelling ∈ ["!" ++ entry.1, "!!" ++ entry.1, core ++ "!" ++ entry.1] then some entry.2
    else none
  (names.findSome? byName).getD other

/-- The tag of a handle and a suffix. A handle that has a name has to be declared. -/
def resolve? (handles : List (String × String)) (handle suffix : String) : Option Tag := do
  let start ←
    match handles.lookup handle with
    | some start => some start
    | none =>
      if handle = "!!" then some core
      else if handle = "" ∨ handle = "!" then some handle
      else none
  return ofSpelling ((if start = "!" then "" else start) ++ "!" ++ suffix)

/-- The text that a tagged scalar stands for; nothing if it is declared to be no text. -/
def textOf? (tag : Tag) (s : String) : Option String :=
  match tag with
  | absent | text | other => some s
  | binary => Text.Base64.decode? s
  | _ => none

end Tag

end Buildwright.Yaml
