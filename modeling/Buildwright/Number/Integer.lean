/-!
# Integers as they are written

An integer is written with an optional sign and digits, which underscores may part.
The digits are decimal, or of the base that a prefix `0x`, `0o` or `0b` gives.
-/

namespace Buildwright.Number

/-- The value of a digit of a base up to 16. -/
def digit? (base : Nat) (c : Char) : Option Nat :=
  let value? : Option Nat :=
    if c.isDigit then some (c.toNat - 48)
    else if 'a' ≤ c ∧ c ≤ 'f' then some (c.toNat - 87)
    else if 'A' ≤ c ∧ c ≤ 'F' then some (c.toNat - 55)
    else none
  value?.filter (· < base)

/-- The number that digits of a base stand for; there has to be one at least. -/
def natural? (base : Nat) (digits : List Char) : Option Nat :=
  if digits = [] then none
  else digits.foldlM (fun n d => (digit? base d).map (base * n + ·)) 0

/-- The base of a prefix, and what follows it. -/
def splitBase : List Char → Nat × List Char
  | '0' :: x :: rest =>
    if x = 'x' ∨ x = 'X' then (16, rest)
    else if x = 'o' ∨ x = 'O' then (8, rest)
    else if x = 'b' ∨ x = 'B' then (2, rest)
    else (10, '0' :: x :: rest)
  | digits => (10, digits)

/-- The number of naturals that 64 bits hold. -/
def naturals64 : Nat := 18446744073709551616

/-- The number of negative integers that 64 bits hold. -/
def negatives64 : Nat := 9223372036854775808

/-- The sign of a number, and what follows it. -/
def splitSign : List Char → Bool × List Char
  | '-' :: rest => (true, rest)
  | '+' :: rest => (false, rest)
  | digits => (false, digits)

/-- Read an integer. An unsigned number has to fit 64 bits, a negative one 63 and a
    sign. -/
def integer? (text : String) : Option Int :=
  let (negative, rest) := splitSign text.toList
  let (base, digits) := splitBase rest
  let digits := digits.filter (· ≠ '_')
  match natural? base digits with
  | none => none
  | some n =>
    if negative then if n ≤ negatives64 then some (-n) else none
    else if n < naturals64 then some n else none

end Buildwright.Number
