/-
JSON values.

A JSON value is a tree of the six kinds.  An object is a table, so it remembers the
order of its fields, and equality does not look at it: two objects are equal when
they have as many fields and each field of the one is found, with an equal value, in
the other.
-/
import Reducer.Table
import Reducer.Number.Basic

namespace Reducer

/-- The six kinds of values. -/
inductive Kind
  | null
  | boolean
  | number
  | string
  | array
  | object
  deriving DecidableEq, Repr

/-- The kind's name in messages. -/
def Kind.name : Kind → String
  | .null => "null"
  | .boolean => "boolean"
  | .number => "number"
  | .string => "string"
  | .array => "array"
  | .object => "object"

/-- The kind with the given name. -/
def Kind.ofName? (name : String) : Option Kind :=
  [Kind.null, .boolean, .number, .string, .array, .object].find? (·.name == name)

/-- A JSON value; the fields of an object are a table. -/
inductive Json
  | null
  | bool (value : Bool)
  | num (value : Number)
  | str (value : String)
  | arr (items : List Json)
  | obj (fields : List (String × Json))

namespace Json

instance : Inhabited Json := ⟨null⟩

/-- A whole number as JSON. -/
def int (value : Int) : Json := num (.int value)

/-- Which of the six kinds a value is. -/
def kind : Json → Kind
  | null => .null
  | bool _ => .boolean
  | num _ => .number
  | str _ => .string
  | arr _ => .array
  | obj _ => .object

/-- Field of an object. -/
def get? : Json → String → Option Json
  | obj fields, name => Table.get? fields name
  | _, _ => none

/-! ### Equality without regard to the order of fields -/

mutual

/-- Deep equality: numbers of one kind by value, arrays item by item, objects as tables. -/
def eqv : Json → Json → Bool
  | null, null => true
  | bool a, bool b => a == b
  | num a, num b => a.eqv b
  | str a, str b => a == b
  | arr items, arr others => eqvItems items others
  | obj fields, obj others => fields.length == others.length && eqvFields fields others
  | _, _ => false
termination_by structural a => a

/-- Equality item by item; lists of unequal length differ. -/
def eqvItems : List Json → List Json → Bool
  | [], [] => true
  | a :: rest, b :: others => eqv a b && eqvItems rest others
  | _, _ => false
termination_by structural items => items

/-- Whether each field is found with an equal value among the others. -/
def eqvFields : List (String × Json) → List (String × Json) → Bool
  | [], _ => true
  | (name, value) :: rest, others =>
      (match Table.get? others name with
        | some other => eqv value other
        | none => false) && eqvFields rest others
termination_by structural fields => fields

end

end Json

end Reducer
