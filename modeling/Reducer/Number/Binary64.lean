/-
Finite binary64 numbers, exactly.

A magnitude is counted along the line of the finite binary64 numbers: 0 is zero,
1 the smallest number above it, and so on up to the largest.  With 52 bits of
fraction this count is also the bit pattern without its sign, so the spacing of
the numbers can be read off it: the first two blocks of `2 ^ 52` lie one unit
apart, every further block twice as far apart as the one before.  The unit is the
smallest number, `2 ^ -1074`, and every finite number is a whole count of units.

Arithmetic is exact on units and rounds once, to the nearest number and to the
even neighbour from a tie.  `ofRatio` is that rounding; where the exact value lies
beyond the largest number by half a step or more it has no answer, so there is no
infinity here, and nothing makes a NaN.
-/

namespace Reducer

/-- A finite binary64 number: its sign, and how many numbers lie between it and zero. -/
structure Binary64 where
  /-- The sign, which zero has too. -/
  negative : Bool
  /-- The position among the numbers that are not negative, zero first. -/
  magnitude : Nat
  /-- The largest finite number bounds it. -/
  finite : magnitude < 2047 * Nat.pow 2 52
  deriving DecidableEq

namespace Binary64

/-- Zero, with the sign given. -/
def zero (negative : Bool) : Binary64 := ⟨negative, 0, by decide⟩

instance : Inhabited Binary64 := ⟨zero false⟩

/-- The significand: the fraction, with the leading bit that all but the smallest block have. -/
def significand (x : Binary64) : Nat :=
  if x.magnitude < Nat.pow 2 52 then x.magnitude else Nat.pow 2 52 + x.magnitude % Nat.pow 2 52

/-- How often the spacing has doubled at this magnitude. -/
def doublings (x : Binary64) : Nat :=
  x.magnitude / Nat.pow 2 52 - 1

/-- The size as a count of units of `2 ^ -1074`. -/
def units (x : Binary64) : Nat :=
  x.significand * Nat.pow 2 x.doublings

/-- How many units make one. -/
def one : Nat := Nat.pow 2 1074

/--
The magnitude nearest to `num / den` units, ties to the even one.  The spacing is
that of the block the whole part lies in; a significand that rounds up to the next
power of two is the first of the next block, which the count along the line gives
without a case of its own.
-/
def nearest (num den : Nat) : Nat :=
  let doublings := (num / den).log2 - 52
  let step := den * Nat.pow 2 doublings
  let below := num / step
  let rest := num % step
  let up := step < 2 * rest ∨ (step = 2 * rest ∧ below % 2 = 1)
  doublings * Nat.pow 2 52 + (if up then below + 1 else below)

/-- The number nearest to `num / den` units, if it is finite. -/
def ofRatio (negative : Bool) (num den : Nat) : Option Binary64 :=
  if h : nearest num den < 2047 * Nat.pow 2 52 then some ⟨negative, nearest num den, h⟩ else none

/-- The number nearest to a whole number. -/
def ofInt (value : Int) : Option Binary64 :=
  ofRatio (value < 0) (value.natAbs * one) 1

/-- The number nearest to a power of ten. -/
def powerOfTen (exponent : Nat) : Option Binary64 :=
  ofRatio false (Nat.pow 10 exponent * one) 1

/-- The rounded product. -/
def mul (x y : Binary64) : Option Binary64 :=
  ofRatio (x.negative != y.negative) (x.units * y.units) one

/-- The rounded quotient; there is none by zero. -/
def div (x y : Binary64) : Option Binary64 :=
  if y.units = 0 then none else ofRatio (x.negative != y.negative) (x.units * one) y.units

/-- The same size with the other sign. -/
def neg (x : Binary64) : Binary64 :=
  { x with negative := !x.negative }

/-- Equality of numbers: the two zeros are equal, all else differs in sign or size. -/
def eqv (x y : Binary64) : Bool :=
  x.magnitude == y.magnitude && (x.negative == y.negative || x.magnitude == 0)

theorem eqv_iff (x y : Binary64) :
    x.eqv y = true ↔ x.magnitude = y.magnitude ∧ (x.negative = y.negative ∨ x.magnitude = 0) := by
  simp [eqv]

end Binary64

end Reducer
