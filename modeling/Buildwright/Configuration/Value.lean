import Buildwright.Entries
import Buildwright.Number.Floating
import Buildwright.Text.Blank

/-!
# Values of environment variables

The text of a variable is a value: a flag, a number, a list in square brackets, a map in
braces, a text in double quotes or one character in single quotes. What is none of
these is a text as it stands.

## Contents

* `Value` — the values;
* `Value.read?` — a value at the start of a text, and what follows it;
* `Value.ofText` — the value of a whole text;
* `Value.merge` — a value on top of another.
-/

namespace Buildwright.Configuration

/-- The value of a variable. -/
inductive Value where
  | null
  | flag (value : Bool)
  | integer (value : Int)
  /-- A number with a point. -/
  | fraction
  | text (value : String)
  | list (items : List Value)
  | map (entries : List (String × Value))
deriving Repr, Inhabited

namespace Value

/-- The blanks between values. -/
def isSpace (c : Char) : Bool :=
  c = ' ' || c = '\t' || c = '\n' || c = '\r' || c = '\x0c'

/-- The characters that end a text that is not quoted. -/
def isSeparator (c : Char) : Bool :=
  c = ',' || c = '[' || c = ']' || c = '\x7b' || c = '\x7d'

/-- The characters of a key that is not quoted. -/
def isKeyChar (c : Char) : Bool :=
  c.isAlphanum || c = '_' || c = '-'

/-- The value of a word: a number if it is one. A number with a point that is too great
    is null. -/
def ofWord (word : List Char) : Value :=
  let s := String.ofList word
  match (Number.Literal.ofText? s).filter fun _ => word.contains '.' with
  | some l => if (Number.nearest? l.digits l.power).isSome then .fraction else .null
  | none =>
    let (negative, digits) := Number.splitSign word
    match Number.natural? 10 digits with
    | some n =>
      if negative then if n ≤ Number.negatives64 then .integer (-n) else .text s
      else if n < Number.naturals64 then .integer n else .text s
    | none => .text s

/-- The text up to the closing quote, and what follows the quote. A backslash stays with
    the character behind it. -/
def upToQuote? : List Char → Option (List Char × List Char)
  | [] => none
  | '"' :: rest => some ([], rest)
  | '\\' :: c :: rest => (upToQuote? rest).map fun (t, r) => ('\\' :: c :: t, r)
  | c :: rest => (upToQuote? rest).map fun (t, r) => (c :: t, r)

/-- The character that a letter behind a backslash stands for. -/
def escape? : Char → Option Char
  | '"' => some '"'
  | '\\' => some '\\'
  | 'b' => some '\x08'
  | 't' => some '\t'
  | 'n' => some '\n'
  | 'f' => some '\x0c'
  | 'r' => some '\r'
  | _ => none

/-- The character of a hexadecimal number of `n` digits. -/
def character? (n : Nat) (cs : List Char) : Option Char := do
  if (cs.take n).length < n then none
  else
    let code ← Number.natural? 16 (cs.take n)
    if h : code.isValidChar then some (Char.ofNatAux code h) else none

/-- Resolve the backslashes of a quoted text; `n` bounds its length. -/
def unescape? : Nat → List Char → Option (List Char)
  | _, [] => some []
  | 0, _ => none
  | n + 1, '\\' :: c :: rest =>
    if c = 'u' then do return (← character? 4 rest) :: (← unescape? n (rest.drop 4))
    else if c = 'U' then do return (← character? 8 rest) :: (← unescape? n (rest.drop 8))
    else do return (← escape? c) :: (← unescape? n rest)
  | n + 1, c :: rest =>
    if c = '\\' || (c < ' ' && c ≠ '\t') || c = '\x7f' then none
    else (unescape? n rest).map (c :: ·)

/-- A quoted text behind its opening quote, and what follows it. -/
def quoted? (cs : List Char) : Option (String × List Char) := do
  let (inner, rest) ← upToQuote? cs
  return (String.ofList (← unescape? inner.length inner), rest)

/-- A key, and what follows it. -/
def key? (cs : List Char) : Option (String × List Char) :=
  match cs with
  | '"' :: rest => quoted? rest
  | cs =>
    if cs.takeWhile isKeyChar = [] then none
    else some (String.ofList (cs.takeWhile isKeyChar), cs.dropWhile isKeyChar)

mutual

/-- A value with the blanks around it, and what follows; `n` bounds its parts. -/
def readUpTo? : Nat → List Char → Option (Value × List Char)
  | 0, _ => none
  | n + 1, cs => do
    let (value, rest) ← contentUpTo? n (cs.dropWhile isSpace)
    return (value, rest.dropWhile isSpace)

/-- A value, and what follows it. -/
def contentUpTo? : Nat → List Char → Option (Value × List Char)
  | 0, _ => none
  | n + 1, cs =>
    match "true".toList.isPrefixOf? cs, "false".toList.isPrefixOf? cs with
    | some rest, _ => some (.flag true, rest)
    | none, some rest => some (.flag false, rest)
    | none, none =>
      match cs with
      | '[' :: rest => do
        let (items, rest) ← itemsUpTo? n rest
        return (.list items, rest)
      | '\x7b' :: rest => do
        let (entries, rest) ← entriesUpTo? n rest []
        return (.map entries, rest)
      | '"' :: rest => (quoted? rest).map fun (t, rest) => (.text t, rest)
      | '\'' :: c :: '\'' :: rest => some (.text (String.ofList [c]), rest)
      | '\'' :: _ => none
      | cs =>
        some (ofWord (Text.trim (cs.takeWhile (!isSeparator ·))), cs.dropWhile (!isSeparator ·))

/-- The items of a list up to its closing bracket. A comma may follow the last one. -/
def itemsUpTo? : Nat → List Char → Option (List Value × List Char)
  | 0, _ => none
  | _, ']' :: rest => some ([], rest)
  | n + 1, cs => do
    let (item, rest) ← readUpTo? n cs
    match rest with
    | ']' :: rest => return ([item], rest)
    | ',' :: rest =>
      let (items, rest) ← itemsUpTo? n rest
      return (item :: items, rest)
    | _ => none

/-- The entries of a map up to its closing brace. A comma may follow the last one. -/
def entriesUpTo? : Nat → List Char → List (String × Value) →
    Option (List (String × Value) × List Char)
  | 0, _, _ => none
  | _, '\x7d' :: rest, entries => some (entries, rest)
  | n + 1, cs, entries => do
    let (key, rest) ← key? (cs.dropWhile isSpace)
    match rest.dropWhile isSpace with
    | '=' :: rest =>
      let (value, rest) ← readUpTo? n rest
      let entries := setEntry key value entries
      match rest with
      | '\x7d' :: rest => return (entries, rest)
      | ',' :: rest => entriesUpTo? n rest entries
      | _ => none
    | _ => none

end

/-- A value at the start of a text, and what follows it. -/
def read? (cs : List Char) : Option (Value × List Char) :=
  readUpTo? (3 * cs.length + 3) cs

/-- The value of a whole text. -/
def ofText (s : String) : Value :=
  match read? s.toList with
  | some (value, []) => value
  | _ => .text s

mutual

/-- A value on top of another. Maps are put together key by key; any other value takes
    the place of the one below. -/
def merge (lower : Value) : Value → Value
  | .map entries =>
    match lower with
    | .map below => .map (mergeEntries below entries)
    | _ => .map entries
  | upper => upper

/-- Entries on top of others. -/
def mergeEntries (below : List (String × Value)) : List (String × Value) → List (String × Value)
  | [] => below
  | (key, value) :: rest =>
    let value :=
      match below.lookup key with
      | some lower => merge lower value
      | none => value
    mergeEntries (setEntry key value below) rest

end

/-- A value under a path of keys. -/
def nest (value : Value) : List String → Value
  | [] => value
  | key :: rest => .map [(key, nest value rest)]

end Value

end Buildwright.Configuration
