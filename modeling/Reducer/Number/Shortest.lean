/-
The shortest decimal that reads back.

A binary64 number stands for every real that rounds to it: an interval around it
which reaches half-way to both neighbours, ends included iff the significand is
even.  Of all decimals `digits * 10 ^ exponent` in that interval, the ones with the
largest exponent have the fewest digits, and of those the one nearest to the number
is its text.

On one grid `10 ^ exponent` only the two points around the number can be the
nearest, so a grid is settled by two comparisons of natural numbers.  The search
tries the grids from the coarsest down.  It cannot fail: the finest, `10 ^ -324`,
is finer than the spacing of the smallest numbers.
-/
import Reducer.Number.Binary64

namespace Reducer

/-- The decimal `digits * 10 ^ exponent`. -/
structure Decimal where
  /-- The digits, as one whole number. -/
  digits : Nat
  /-- The power of ten they are scaled by. -/
  exponent : Int
  deriving DecidableEq, Repr

namespace Binary64

/-- How far the interval of `x` reaches below it, in quarters of a unit. -/
def reachBelow (x : Binary64) : Nat :=
  if x.significand = Nat.pow 2 52 ∧ 0 < x.doublings then Nat.pow 2 x.doublings
  else 2 * Nat.pow 2 x.doublings

/-- How far the interval of `x` reaches above it, in quarters of a unit. -/
def reachAbove (x : Binary64) : Nat :=
  2 * Nat.pow 2 x.doublings

/--
The point of the grid `10 ^ exponent` that is nearest to `x` among those that round
to `x`, if there is one.  All quantities are scaled so that the grid step and the
quarter unit are both whole: `step` is the one, `scale` the other.
-/
def onGrid (x : Binary64) (exponent : Int) : Option Decimal :=
  let step := 4 * one * Nat.pow 10 exponent.toNat
  let scale := Nat.pow 10 (-exponent).toNat
  let value := 4 * x.units * scale
  let low := value - x.reachBelow * scale
  let high := value + x.reachAbove * scale
  let inside (point : Nat) : Bool :=
    if x.significand % 2 = 0 then low ≤ point * step && point * step ≤ high
    else low < point * step && point * step < high
  let below := value / step
  let above := below + 1
  let toBelow := value - below * step
  let toAbove := above * step - value
  let takeBelow := toBelow < toAbove ∨ (toBelow = toAbove ∧ below % 2 = 0)
  let belowFits := 0 < below && inside below
  if belowFits && (takeBelow || !inside above) then some ⟨below, exponent⟩
  else if inside above then some ⟨above, exponent⟩
  else none

/-- Tries the grids from `10 ^ (n - 324)` down. -/
def searchGrids (x : Binary64) : Nat → Option Decimal
  | 0 => x.onGrid (-324)
  | n + 1 => match x.onGrid ((n + 1 : Nat) - 324) with
    | some point => some point
    | none => searchGrids x n

/-- The shortest decimal that rounds to `x`, and the nearest of those; zero for zero. -/
def shortest (x : Binary64) : Decimal :=
  if x.magnitude = 0 then ⟨0, 0⟩
  else (x.searchGrids (324 + (Nat.toDigits 10 (x.units / one)).length)).getD ⟨0, 0⟩

end Binary64

end Reducer
