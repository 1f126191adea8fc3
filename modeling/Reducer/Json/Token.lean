/-
The tokens of a JSON text.

A text is cut into punctuation, the three names, strings and numbers; blanks only
separate.  A string or number token already carries its value, so a string that is
not closed or a number that is out of range stops the scan.

Every step of the scan takes at least one character, so as many steps as there are
characters are enough.
-/
import Reducer.Json.Quoted
import Reducer.Number.Literal

namespace Reducer

/-- What a JSON text is made of. -/
inductive Token
  | openArray
  | closeArray
  | openObject
  | closeObject
  | comma
  | colon
  | null
  | bool (value : Bool)
  | num (value : Number)
  | str (value : String)

namespace Token

/-- The four blanks. -/
def isBlank (c : Char) : Bool :=
  c = ' ' || c = '\n' || c = '\t' || c = '\r'

/-- The values of the leading digits, and the rest. -/
def digits (chars : List Char) : List Nat × List Char :=
  ((chars.takeWhile Char.isDigit).map fun c => c.toNat - '0'.toNat, chars.dropWhile Char.isDigit)

/-- At least one digit. -/
def someDigits (chars : List Char) : Option (List Nat × List Char) :=
  match digits chars with
  | ([], _) => none
  | found => some found

/-- The whole part of a number: a zero comes first only when it is alone. -/
def wholePart (chars : List Char) : Option (List Nat × List Char) := do
  let (found, rest) ← someDigits chars
  if found.head? = some 0 ∧ 1 < found.length then none
  some (found, rest)

/-- The fraction, if a point follows. -/
def fractionPart : List Char → Option (Option (List Nat) × List Char)
  | '.' :: rest => (someDigits rest).map fun found => (some found.1, found.2)
  | chars => some (none, chars)

/-- The sign of a power of ten; a plus says nothing. -/
def powerSign : List Char → Bool × List Char
  | '-' :: rest => (true, rest)
  | '+' :: rest => (false, rest)
  | chars => (false, chars)

/-- The power of ten, if an exponent letter follows. -/
def powerPart : List Char → Option (Option Int × List Char)
  | c :: rest =>
      if c = 'e' ∨ c = 'E' then do
        let (negative, rest) := powerSign rest
        let (found, rest) ← someDigits rest
        let value : Nat := found.foldl (fun acc digit => acc * 10 + digit) 0
        some (some (if negative then -value else value), rest)
      else some (none, c :: rest)
  | [] => some (none, [])

/-- A number without its sign. -/
def literal (negative : Bool) (chars : List Char) : Option (Literal × List Char) := do
  let (whole, rest) ← wholePart chars
  let (fraction, rest) ← fractionPart rest
  let (power, rest) ← powerPart rest
  some (⟨negative, whole, fraction, power⟩, rest)

/-- A number token. -/
def number (chars : List Char) : Option (Token × List Char) := do
  let (literal, rest) ← match chars with
    | '-' :: rest => literal true rest
    | _ => literal false chars
  some (.num (← literal.number?), rest)

/-- The token that the characters start with; they start with no blank. -/
def first (chars : List Char) : Option (Token × List Char) :=
  match chars with
  | '[' :: rest => some (.openArray, rest)
  | ']' :: rest => some (.closeArray, rest)
  | '{' :: rest => some (.openObject, rest)
  | '}' :: rest => some (.closeObject, rest)
  | ',' :: rest => some (.comma, rest)
  | ':' :: rest => some (.colon, rest)
  | '"' :: rest => (Quoted.decode rest).map fun found => (.str found.1, found.2)
  | 'n' :: 'u' :: 'l' :: 'l' :: rest => some (.null, rest)
  | 't' :: 'r' :: 'u' :: 'e' :: rest => some (.bool true, rest)
  | 'f' :: 'a' :: 'l' :: 's' :: 'e' :: rest => some (.bool false, rest)
  | _ => number chars

/-- The tokens, in at most as many steps as given. -/
def scanUpTo : Nat → List Char → Option (List Token)
  | _, [] => some []
  | 0, _ => none
  | steps + 1, c :: rest =>
      if isBlank c then scanUpTo steps rest
      else do
        let (token, rest) ← first (c :: rest)
        let more ← scanUpTo steps rest
        some (token :: more)

/-- The tokens of a text. -/
def scan (text : String) : Option (List Token) :=
  let chars := text.toList
  scanUpTo chars.length chars

end Token

end Reducer
