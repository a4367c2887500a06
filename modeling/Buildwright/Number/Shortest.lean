import Buildwright.Number.Floating

/-!
# Shortest decimal text of a floating point number

A stored number is the nearest one for a whole interval of numbers. Its text has the
fewest digits that name a number of this interval, and of the texts with as few
digits it is the nearest.

## Contents

* `shortest` — digits and power of ten;
* `Floating.text` — how they are written down.
-/

namespace Buildwright.Number

/-- The numbers that read back as a stored one, in quarters of its last place. -/
structure Interval where
  low : Nat
  high : Nat
  /-- Whether the ends belong to it. -/
  closed : Bool

/-- The interval of `significand · 2 ^ power`, in units of `2 ^ (power - 2)`. -/
def interval (significand : Nat) (power : Int) : Interval where
  low :=
    if significand = leastFull ∧ power > leastPower then 4 * significand - 1
    else 4 * significand - 2
  high := 4 * significand + 2
  closed := significand % 2 = 0

/-- The number `n · 2 ^ two / 10 ^ ten` as a fraction. -/
def ratio (n : Nat) (two ten : Int) : Nat × Nat :=
  let (a, b) := scaled n 2 two
  let (c, d) := scaled 1 10 ten
  (a * d, b * c)

/-- Whether `n` steps of `10 ^ ten` lie in the interval. -/
def Interval.holds (i : Interval) (two ten : Int) (n : Nat) : Bool :=
  let (low, d) := ratio i.low two ten
  let (high, e) := ratio i.high two ten
  if i.closed then low ≤ n * d && n * e ≤ high else low < n * d && n * e < high

/-- The number of digits before the point: the least `k` with a number below
    `10 ^ k`. -/
def magnitude (significand : Nat) (power : Int) : Int :=
  let isBelow (k : Int) : Bool :=
    let (a, b) := ratio significand power k
    a < b
  match (List.range 660).find? fun (i : Nat) => isBelow ((i : Int) - 330) with
  | some i => (i : Int) - 330
  | none => 330

/-- The point on the grid of `10 ^ ten` that lies in the interval and is nearest to
    its number. -/
def gridPoint? (significand : Nat) (power ten : Int) : Option Nat :=
  let i := interval significand power
  let (a, b) := ratio significand power ten
  let below := a / b
  let inBelow := i.holds (power - 2) ten below
  let inAbove := i.holds (power - 2) ten (below + 1)
  if inBelow && inAbove then some (roundDiv a b)
  else if inBelow then some below
  else if inAbove then some (below + 1)
  else none

/-- The digits of a number without the zeros at its end. -/
def significantDigits (n : Nat) : List Char :=
  ((Nat.toDigits 10 n).reverse.dropWhile (· = '0')).reverse

/-- The fewest digits that name a positive stored number, and the place of the point
    before them. -/
def shortest (significand : Nat) (power : Int) : List Char × Int :=
  let k := magnitude significand power
  match (List.range 17).findSome? fun (n : Nat) =>
      let ten := k - ((n : Int) + 1)
      (gridPoint? significand power ten).map fun p => (p, ten) with
  | some (p, ten) =>
    (significantDigits p, (Nat.toDigits 10 p).length + ten)
  | none => (['0'], 1)

/-- The text of digits with the point at `place`: positional as long as at most 16
    digits stand before the point and at most four zeros behind it. -/
def digitsText (digits : List Char) (place : Int) : List Char :=
  let n : Int := digits.length
  if n ≤ place ∧ place ≤ 16 then
    digits ++ List.replicate (place - n).toNat '0' ++ ['.', '0']
  else if 0 < place ∧ place ≤ 16 then
    digits.take place.toNat ++ '.' :: digits.drop place.toNat
  else if -5 < place ∧ place ≤ 0 then
    ['0', '.'] ++ List.replicate (-place).toNat '0' ++ digits
  else
    let e := place - 1
    let sign := if e < 0 then ['-'] else ['+']
    let part := if digits.length = 1 then [] else '.' :: digits.drop 1
    digits.take 1 ++ part ++ ['e'] ++ sign ++ Nat.toDigits 10 e.natAbs

def Floating.text (f : Floating) : String :=
  let digits :=
    if f.significand = 0 then ['0', '.', '0']
    else
      let (digits, place) := shortest f.significand f.power
      digitsText digits place
  String.ofList (if f.negative then '-' :: digits else digits)

end Buildwright.Number
