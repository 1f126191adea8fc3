/-
JSON values from tokens.

The reader keeps a stack of the containers that are open and what may come next.
Each token moves it one step, so the value of a list of tokens is one fold, and the
fold has an answer exactly when the last token closed the only value.

A container may open inside at most `maxDepth - 1` others.  A field name that comes
again changes the value and keeps the place of the first.
-/
import Reducer.Json.Basic
import Reducer.Json.Token

namespace Reducer.Json

/-- A container that is open. -/
inductive Frame
  /-- An array, with the items read so far, last first. -/
  | items (done : List Json)
  /-- An object, with the fields read so far and the name of the one being read. -/
  | fields (done : Table Json) (name : String)

/-- What may come next, inside the open containers. -/
inductive Reading
  /-- A value. -/
  | atValue (stack : List Frame)
  /-- The first item of an array, or its end. -/
  | atFirstItem (stack : List Frame)
  /-- The first field name of an object, or its end. -/
  | atFirstName (stack : List Frame)
  /-- A further field name. -/
  | atName (done : Table Json) (stack : List Frame)
  /-- The colon after a field name. -/
  | atColon (done : Table Json) (name : String) (stack : List Frame)
  /-- Nothing, or what continues or closes the innermost container. -/
  | complete (value : Json) (stack : List Frame)

/-- How many containers may be open at once. -/
def maxDepth : Nat := 127

/-- The token a value starts with. -/
def Reading.start (stack : List Frame) : Token → Option Reading
  | .null => some (.complete .null stack)
  | .bool value => some (.complete (.bool value) stack)
  | .num value => some (.complete (.num value) stack)
  | .str value => some (.complete (.str value) stack)
  | .openArray => if stack.length < maxDepth then some (.atFirstItem stack) else none
  | .openObject => if stack.length < maxDepth then some (.atFirstName stack) else none
  | _ => none

/-- One token further, if it may come here. -/
def Reading.step : Reading → Token → Option Reading
  | .atValue stack, token => start stack token
  | .atFirstItem stack, .closeArray => some (.complete (.arr []) stack)
  | .atFirstItem stack, token => start (.items [] :: stack) token
  | .atFirstName stack, .closeObject => some (.complete (.obj []) stack)
  | .atFirstName stack, .str name => some (.atColon [] name stack)
  | .atName done stack, .str name => some (.atColon done name stack)
  | .atColon done name stack, .colon => some (.atValue (.fields done name :: stack))
  | .complete value (.items done :: stack), .comma =>
      some (.atValue (.items (value :: done) :: stack))
  | .complete value (.items done :: stack), .closeArray =>
      some (.complete (.arr (value :: done).reverse) stack)
  | .complete value (.fields done name :: stack), .comma =>
      some (.atName (Table.set done name value) stack)
  | .complete value (.fields done name :: stack), .closeObject =>
      some (.complete (.obj (Table.set done name value)) stack)
  | _, _ => none

/-- The value, if it is complete and nothing is open. -/
def Reading.finish? : Reading → Option Json
  | .complete value [] => some value
  | _ => none

/-- The value of a list of tokens. -/
def ofTokens? (tokens : List Token) : Option Json := do
  let reading ← tokens.foldlM Reading.step (.atValue [])
  reading.finish?

/-- The value of a text. -/
def parse? (text : String) : Option Json := do
  ofTokens? (← Token.scan text)

end Reducer.Json
