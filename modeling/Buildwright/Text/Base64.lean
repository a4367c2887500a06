/-!
# Bytes written in base 64

Three bytes are written with four characters of six bits each. A last group of one byte
or two is filled up with `=`; the bits that it leaves over do not count.

## Contents

* `sextet?` — the six bits of a character;
* `groups?` — the bytes of a text of whole groups;
* `decode?` — the text that a text in base 64 stands for.
-/

namespace Buildwright.Text.Base64

/-- The six bits of a character. -/
def sextet? (c : Char) : Option Nat :=
  if 'A' ≤ c ∧ c ≤ 'Z' then some (c.toNat - 65)
  else if 'a' ≤ c ∧ c ≤ 'z' then some (c.toNat - 71)
  else if '0' ≤ c ∧ c ≤ '9' then some (c.toNat + 4)
  else if c = '+' then some 62
  else if c = '/' then some 63
  else none

/-- The number of a group of characters. -/
def number? (cs : List Char) : Option Nat :=
  cs.foldlM (fun n c => (sextet? c).map (64 * n + ·)) 0

/-- The bytes of a text of whole groups; only the last one may be filled up. -/
def groups? : List Char → Option (List UInt8)
  | [] => some []
  | [a, b, '=', '='] => (number? [a, b]).map fun n => [(n / 16).toUInt8]
  | [a, b, c, '='] => (number? [a, b, c]).map fun n => [(n / 1024).toUInt8, (n / 4).toUInt8]
  | a :: b :: c :: d :: rest => do
    let n ← number? [a, b, c, d]
    return (n / 65536).toUInt8 :: (n / 256).toUInt8 :: n.toUInt8 :: (← groups? rest)
  | _ => none

/-- Whether a character may stand anywhere between the others. -/
def isFiller (c : Char) : Bool :=
  c = ' ' || c = '\t' || c = '\n' || c = '\r' || c = '\x0c'

/-- The text that a text in base 64 stands for; nothing if it stands for no text. -/
def decode? (text : String) : Option String := do
  let bytes ← groups? (text.toList.filter (!isFiller ·))
  String.fromUTF8? ⟨bytes.toArray⟩

end Buildwright.Text.Base64
