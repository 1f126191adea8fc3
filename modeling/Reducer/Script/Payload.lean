/-
Payloads written as data: JSON values with gaps for positional arguments.
-/
import Reducer.Action

namespace Reducer.Script

/-- How a payload is made of arguments. -/
inductive Payload
  /-- A constant. -/
  | lit (value : Json)
  /-- The argument at a position, or null. -/
  | arg (position : Nat)
  /-- All arguments, as an array. -/
  | args
  /-- An array. -/
  | arr (items : List Payload)
  /-- An object; a repeated name keeps its place and takes the last value. -/
  | obj (fields : List (String × Payload))

namespace Payload

mutual

/-- The payload of the arguments given. -/
def eval (given : List Json) : Payload → Json
  | lit value => value
  | arg position => given[position]?.getD .null
  | args => .arr given
  | arr items => .arr (evalItems given items)
  | obj fields => .obj (Table.ofEntries (evalFields given fields))
termination_by structural payload => payload

/-- The items of an array. -/
def evalItems (given : List Json) : List Payload → List Json
  | [] => []
  | item :: rest => eval given item :: evalItems given rest
termination_by structural items => items

/-- The fields of an object. -/
def evalFields (given : List Json) : List (String × Payload) → List (String × Json)
  | [] => []
  | (name, value) :: rest => (name, eval given value) :: evalFields given rest
termination_by structural fields => fields

end

end Payload

end Reducer.Script
