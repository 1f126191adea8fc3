/-
Numbers as they are written, and the number a text stands for.

A literal is a sign, whole digits, and perhaps a fraction and a power of ten.  With
neither of the last two it is a whole number if it fits the 64-bit ranges.  All
else is a binary64 number, read in three steps, each of them rounded:

  * the significand keeps the leading digits that fit 64 bits; a whole digit that no
    longer fits counts as a factor of ten, and from the first fraction digit that no
    longer fits on, the fraction is dropped;
  * the significand becomes the nearest binary64 number;
  * it is multiplied or divided by the power of ten, in two divisions where one power
    of ten is out of range.

So reading is close to the exact decimal but not always the nearest number to it.
A value beyond the largest number has no reading; one below the smallest is zero.
-/
import Reducer.Number.Basic

namespace Reducer

/-- A number as it is written; digits are values below ten. -/
structure Literal where
  /-- Whether a minus sign comes first. -/
  negative : Bool
  /-- The digits before the point. -/
  whole : List Nat
  /-- The digits after the point, if there is one. -/
  fraction : Option (List Nat)
  /-- The power of ten, if one is written. -/
  power : Option Int

namespace Literal

/-- The significand of whole digits, and how many digits no longer fitted it. -/
def gatherWhole : Nat → List Nat → Nat × Nat
  | significand, [] => (significand, 0)
  | significand, digit :: rest =>
      if significand * 10 + digit < Nat.pow 2 64 then gatherWhole (significand * 10 + digit) rest
      else (significand, rest.length + 1)

/-- The significand with fraction digits added, and how many were added. -/
def gatherFraction : Nat → List Nat → Nat × Nat
  | significand, [] => (significand, 0)
  | significand, digit :: rest =>
      if significand * 10 + digit < Nat.pow 2 64 then
        let (gathered, count) := gatherFraction (significand * 10 + digit) rest
        (gathered, count + 1)
      else (significand, 0)

/-- The largest power of ten that is a finite number. -/
def largestPower : Nat := 308

/-- Divides by a power of ten. -/
def scaleDown (x : Binary64) (power : Nat) : Option Binary64 := do
  if power ≤ largestPower then x.div (← Binary64.powerOfTen power)
  else if power ≤ 2 * largestPower then
    let part ← x.div (← Binary64.powerOfTen largestPower)
    part.div (← Binary64.powerOfTen (power - largestPower))
  else some (Binary64.zero false)

/-- Multiplies by a power of ten; zero stays zero under any power. -/
def scaleUp (x : Binary64) (power : Nat) : Option Binary64 := do
  if power ≤ largestPower then x.mul (← Binary64.powerOfTen power)
  else if x.magnitude = 0 then some x
  else none

/-- The significand scaled by a power of ten, if the result is finite. -/
def scale (significand : Nat) (power : Int) : Option Binary64 := do
  let x ← Binary64.ofInt significand
  if power < 0 then scaleDown x power.natAbs else scaleUp x power.natAbs

/-- A whole number if it fits; minus zero and what is out of range are binary64 numbers. -/
def wholeNumber (negative : Bool) (value : Nat) : Option Number :=
  if !negative then some (.int value)
  else if 0 < value ∧ value ≤ Nat.pow 2 63 then some (.int (-value))
  else (Binary64.ofInt value).map fun x => .float x.neg

/-- The number a literal stands for, if it is finite. -/
def number? (literal : Literal) : Option Number := do
  let (significand, excess) := gatherWhole 0 literal.whole
  if literal.fraction.isNone && literal.power.isNone && excess == 0 then
    wholeNumber literal.negative significand
  else
    let (significand, places) := gatherFraction significand (literal.fraction.getD [])
    let x ← scale significand (excess - places + literal.power.getD 0)
    some (.float (if literal.negative then x.neg else x))

end Literal

end Reducer
