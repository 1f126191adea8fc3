/-
The text of a number.

A whole number is its decimal digits.  A binary64 number is its shortest digits, in
plain notation when the leading digit's power of ten is not far from zero and with
an exponent otherwise.  Either way the text shows what it is: it has a point or an
exponent, and a whole number's text has neither.
-/
import Reducer.Number.Basic
import Reducer.Number.Shortest

namespace Reducer

/-- Where plain notation ends, as bounds on the power of ten of the leading digit. -/
structure FloatLayout where
  /-- The least power written plainly. -/
  plainFrom : Int
  /-- The greatest power written plainly. -/
  plainTo : Int

namespace FloatLayout

/-- From `0.00001` to below `10 ^ 16` without an exponent. -/
def standard : FloatLayout := ⟨-5, 15⟩

/-- Digits with a point before the last `places` of them, and at least one digit on either side. -/
def pointed (digits : List Char) (places : Nat) : List Char :=
  let padded := List.replicate (places + 1 - digits.length) '0' ++ digits
  let split := padded.length - places
  let fraction := padded.drop split
  padded.take split ++ '.' :: (if fraction.isEmpty then ['0'] else fraction)

/-- One digit before the point and the rest after it, with no point after a lone digit. -/
def leading (digits : List Char) : List Char :=
  match digits with
  | first :: second :: rest => first :: '.' :: second :: rest
  | _ => digits

/-- The power of ten with its sign. -/
def power (exponent : Int) : List Char :=
  'e' :: (if exponent < 0 then '-' else '+') :: Nat.toDigits 10 exponent.natAbs

/-- The text of a decimal that is not negative. -/
def write (layout : FloatLayout) (value : Decimal) : List Char :=
  let digits := Nat.toDigits 10 value.digits
  let exponent := value.exponent + (digits.length - 1 : Nat)
  if layout.plainFrom ≤ exponent ∧ exponent ≤ layout.plainTo then
    pointed (digits ++ List.replicate value.exponent.toNat '0') (-value.exponent).toNat
  else leading digits ++ power exponent

end FloatLayout

/-- The sign, if there is one, and the shortest digits that read back. -/
def Binary64.text (x : Binary64) : String :=
  String.ofList ((if x.negative then ['-'] else []) ++ FloatLayout.standard.write x.shortest)

/-- The text of a number in JSON. -/
def Number.text : Number → String
  | .int value => toString value
  | .float value => value.text

end Reducer
