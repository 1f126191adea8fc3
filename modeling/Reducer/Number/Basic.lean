/-
Numbers of a state tree.

A number is a whole number or a binary64 number, and the two never mix: `1` and
`1.0` are different numbers, though both print as one.  The whole numbers that
reading makes lie between `-2 ^ 63` and `2 ^ 64 - 1`; two narrower ranges decide
which of them a signed or an unsigned 64-bit reader accepts.
-/
import Reducer.Number.Binary64

namespace Reducer

/-- A whole number or a binary64 number. -/
inductive Number
  | int (value : Int)
  | float (value : Binary64)
  deriving DecidableEq

namespace Number

/-- The whole number itself, if it fits a signed 64-bit word. -/
def toSigned? : Number → Option Int
  | .int value => if -Int.pow 2 63 ≤ value ∧ value < Int.pow 2 63 then some value else none
  | .float _ => none

/-- The whole number itself, if it fits an unsigned 64-bit word. -/
def toUnsigned? : Number → Option Nat
  | .int value => if 0 ≤ value ∧ value < Int.pow 2 64 then some value.toNat else none
  | .float _ => none

/-- The nearest binary64 number; every number in range has one. -/
def toBinary64? : Number → Option Binary64
  | .int value => Binary64.ofInt value
  | .float value => some value

/-- Equality within one kind; whole and binary64 numbers are never equal. -/
def eqv : Number → Number → Bool
  | .int a, .int b => a == b
  | .float a, .float b => a.eqv b
  | _, _ => false

/-- Brings a sum back into the signed 64-bit range by wrapping around. -/
def wrapSigned (value : Int) : Int :=
  value.bmod (Nat.pow 2 64)

end Number

end Reducer
