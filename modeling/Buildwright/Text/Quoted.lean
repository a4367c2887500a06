import Buildwright.Text.Visible

/-!
# Quoted texts

A quoted text stands between double quotes. The quote and the backslash are
written after a backslash, tab, line feed, carriage return and the null character
by their letters, every other invisible character by its number in hexadecimal
digits, and all else as it is.

## Contents

* `quoteChar`, `quote` — one character and a whole text;
* `quoteList` — a list of texts.
-/

namespace Buildwright.Text

/-- The hexadecimal digits of a number, lower case, without leading zeros. -/
def hex (n : Nat) : List Char :=
  Nat.toDigits 16 n

/-- One character inside a quoted text. -/
def quoteChar (c : Char) : List Char :=
  if c = '"' then ['\\', '"']
  else if c = '\\' then ['\\', '\\']
  else if c = '\t' then ['\\', 't']
  else if c = '\n' then ['\\', 'n']
  else if c = '\r' then ['\\', 'r']
  else if c = '\x00' then ['\\', '0']
  else if isVisible c then [c]
  else ['\\', 'u', '\x7b'] ++ hex c.toNat ++ ['\x7d']

/-- A text between double quotes. -/
def quote (s : String) : String :=
  String.ofList ('"' :: s.toList.flatMap quoteChar ++ ['"'])

/-- A list of texts between square brackets, each quoted. -/
def quoteList (items : List String) : String :=
  "[" ++ ", ".intercalate (items.map quote) ++ "]"

end Buildwright.Text
