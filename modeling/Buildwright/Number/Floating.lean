import Buildwright.Number.Integer

/-!
# Floating point numbers

A number is stored as a significand of at most 53 bits and a power of two. Reading
a decimal text gives the nearest such number; of two that are equally near, the one
with an even significand.

## Contents

* `Floating` — the stored number;
* `Literal.ofText?` — sign, digits and power of ten of a text;
* `nearest?` — the stored number nearest to `digits · 10 ^ power`;
* `Floating.Value.ofText?` — both together, and the words for what is not finite.
-/

namespace Buildwright.Number

/-- The number `± significand · 2 ^ power`. -/
structure Floating where
  negative : Bool
  significand : Nat
  power : Int
deriving DecidableEq, Repr, Inhabited

/-- The number `± digits · 10 ^ power`, as it is written. -/
structure Literal where
  negative : Bool
  digits : Nat
  power : Int
deriving DecidableEq, Repr, Inhabited

/-- The power of ten behind an `e`; 0 if there is none. -/
def exponent? : List Char → Option Int
  | [] => some 0
  | e :: rest =>
    if e = 'e' ∨ e = 'E' then
      let (negative, digits) := splitSign rest
      (natural? 10 digits).map fun n => if negative then -n else n
    else none

/-- Read a decimal text: an optional sign, digits with at most one point among them,
    and an optional power of ten. -/
def Literal.ofText? (text : String) : Option Literal := do
  let (negative, rest) := splitSign text.toList
  let whole := rest.takeWhile Char.isDigit
  let rest := rest.dropWhile Char.isDigit
  let (part, rest) :=
    match rest with
    | '.' :: rest => (rest.takeWhile Char.isDigit, rest.dropWhile Char.isDigit)
    | rest => ([], rest)
  let digits ← natural? 10 (whole ++ part)
  let power ← exponent? rest
  return { negative, digits, power := power - part.length }

/-- The quotient rounded to the nearest number, a half to the even neighbour. -/
def roundDiv (a b : Nat) : Nat :=
  let q := a / b
  let r := a % b
  if 2 * r < b ∨ (2 * r = b ∧ q % 2 = 0) then q else q + 1

/-- The number `n · base ^ power` as a fraction. -/
def scaled (n base : Nat) (power : Int) : Nat × Nat :=
  if power ≥ 0 then (n * Nat.pow base power.toNat, 1)
  else (n, Nat.pow base (-power).toNat)

/-- The least significand of 53 bits. -/
def leastFull : Nat := 4503599627370496

/-- The least power of two of a stored number. -/
def leastPower : Int := -1074

/-- The greatest power of two of a stored number. -/
def greatestPower : Int := 971

/-- The stored number nearest to a positive fraction, as significand and power of two;
    nothing if it is too great. -/
def nearestFraction? (a b : Nat) : Option (Nat × Int) :=
  let power : Int := (Nat.log2 a : Int) - Nat.log2 b - 53
  let (_, d) := scaled 1 2 power
  let (m, _) := scaled 1 2 power
  let power := if a * d < 2 * leastFull * (b * m) then power else power + 1
  let power := max power leastPower
  let (m, d) := scaled 1 2 power
  let significand := roundDiv (a * d) (b * m)
  let (significand, power) :=
    if significand = 2 * leastFull then (leastFull, power + 1) else (significand, power)
  if power > greatestPower then none else some (significand, power)

/-- The stored number nearest to `digits · 10 ^ power`; nothing if it is too great. -/
def nearest? (digits : Nat) (power : Int) : Option (Nat × Int) :=
  let size : Int := (Nat.toDigits 10 digits).length + power
  if digits = 0 ∨ size < -400 then some (0, 0)
  else if size > 400 then none
  else
    let (a, b) := scaled digits 10 power
    nearestFraction? a b

/-- What the text of a number stands for. -/
inductive Floating.Value where
  | finite (number : Floating)
  /-- A number that is too great to be stored. -/
  | infinite (negative : Bool)
  /-- What is no number, although it is written as one. -/
  | undefined
deriving DecidableEq, Repr, Inhabited

namespace Floating.Value

/-- Read a word for what is not finite. Its case does not count. -/
def ofWord? (text : String) : Option Value :=
  let (negative, rest) := splitSign (text.toList.map Char.toLower)
  let word := String.ofList rest
  if word ∈ [".inf", "inf", "infinity"] then some (infinite negative)
  else if word ∈ [".nan", "nan"] then some undefined
  else none

def ofText? (text : String) : Option Value :=
  match Literal.ofText? text with
  | some l =>
    match nearest? l.digits l.power with
    | some (significand, power) => some (finite { negative := l.negative, significand, power })
    | none => some (infinite l.negative)
  | none => ofWord? text

end Floating.Value

end Buildwright.Number
