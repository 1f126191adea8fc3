/-
Quoted strings.

Writing escapes three things: the quote, the backslash and the control characters
below the blank.  Reading accepts more than writing makes: a slash may be escaped,
and any character may be written as one or two 16-bit units.  A quoted text is first
cut into pieces, characters and escaped units, and then put together; a high unit
stands for a character only together with the low unit that must follow it, and a
low unit never comes first.
-/

namespace Reducer.Quoted

/-! ### Writing -/

/-- One hexadecimal digit, lower case. -/
def hexDigit (value : Nat) : Char :=
  Nat.digitChar (value % 16)

/-- How a character is written between quotes. -/
def escape (c : Char) : List Char :=
  if c = '"' then ['\\', '"']
  else if c = '\\' then ['\\', '\\']
  else if c.toNat = 8 then ['\\', 'b']
  else if c.toNat = 12 then ['\\', 'f']
  else if c = '\n' then ['\\', 'n']
  else if c = '\r' then ['\\', 'r']
  else if c = '\t' then ['\\', 't']
  else if c.toNat < 32 then ['\\', 'u', '0', '0', hexDigit (c.toNat / 16), hexDigit c.toNat]
  else [c]

/-- The text between quotes, escaped where it must be. -/
def encode (text : String) : List Char :=
  '"' :: text.toList.flatMap escape ++ ['"']

/-! ### Reading -/

/-- What stands between quotes: a character, or a 16-bit unit written in hexadecimal. -/
inductive Piece
  | char (c : Char)
  | unit (value : Nat)

/-- The value of a hexadecimal digit of either case. -/
def hexValue? (c : Char) : Option Nat :=
  if '0' ≤ c ∧ c ≤ '9' then some (c.toNat - '0'.toNat)
  else if 'a' ≤ c ∧ c ≤ 'f' then some (c.toNat - 'a'.toNat + 10)
  else if 'A' ≤ c ∧ c ≤ 'F' then some (c.toNat - 'A'.toNat + 10)
  else none

/-- The 16-bit unit of four hexadecimal digits. -/
def unit? (a b c d : Char) : Option Nat := do
  let a ← hexValue? a
  let b ← hexValue? b
  let c ← hexValue? c
  let d ← hexValue? d
  some (((a * 16 + b) * 16 + c) * 16 + d)

/-- The character that a letter after a backslash stands for. -/
def escaped? (c : Char) : Option Char :=
  if c = '"' ∨ c = '\\' ∨ c = '/' then some c
  else if c = 'b' then some (Char.ofNat 8)
  else if c = 'f' then some (Char.ofNat 12)
  else if c = 'n' then some '\n'
  else if c = 'r' then some '\r'
  else if c = 't' then some '\t'
  else none

/-- The pieces up to the closing quote, and the text after it. -/
def pieces : List Char → Option (List Piece × List Char)
  | [] => none
  | '"' :: rest => some ([], rest)
  | '\\' :: 'u' :: a :: b :: c :: d :: rest => do
      let value ← unit? a b c d
      let (more, after) ← pieces rest
      some (.unit value :: more, after)
  | '\\' :: c :: rest => do
      let c ← escaped? c
      let (more, after) ← pieces rest
      some (.char c :: more, after)
  | c :: rest => do
      if c.toNat < 32 ∨ c = '\\' then none
      let (more, after) ← pieces rest
      some (.char c :: more, after)

/-- Whether a unit is the first of a pair. -/
def isHigh (value : Nat) : Bool := 0xD800 ≤ value && value < 0xDC00

/-- Whether a unit is the second of a pair. -/
def isLow (value : Nat) : Bool := 0xDC00 ≤ value && value < 0xE000

/-- The character that a pair of units stands for. -/
def paired (high low : Nat) : Char :=
  Char.ofNat (0x10000 + (high - 0xD800) * 0x400 + (low - 0xDC00))

/-- The characters of the pieces, if every paired unit has its partner. -/
def assemble : List Piece → Option (List Char)
  | [] => some []
  | .char c :: rest => (assemble rest).map (c :: ·)
  | .unit high :: .unit low :: rest =>
      if isHigh high then
        if isLow low then (assemble rest).map (paired high low :: ·) else none
      else if isLow high then none
      else (assemble (.unit low :: rest)).map (Char.ofNat high :: ·)
  | .unit value :: rest =>
      if isHigh value || isLow value then none
      else (assemble rest).map (Char.ofNat value :: ·)

/-- Reads what follows an opening quote: the text, and what comes after the closing quote. -/
def decode (chars : List Char) : Option (String × List Char) := do
  let (found, after) ← pieces chars
  let text ← assemble found
  some (String.ofList text, after)

end Reducer.Quoted
