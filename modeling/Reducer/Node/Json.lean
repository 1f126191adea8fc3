/-
State trees and JSON values.

The content of a node is the JSON value without the labels.  A node can be compared
with a JSON value as it is, and the answer is that of comparing the contents.
-/
import Reducer.Node.Basic

namespace Reducer.Node

mutual

/-- The content of a node: all but its labels, with fields in their order. -/
def toJson : Node → Json
  | null => .null
  | bool value => .bool value
  | num value => .num value
  | str value => .str value
  | arr _ items => .arr (itemsToJson items)
  | obj _ fields => .obj (fieldsToJson fields)
termination_by structural node => node

/-- The contents of items. -/
def itemsToJson : List Node → List Json
  | [] => []
  | item :: rest => toJson item :: itemsToJson rest
termination_by structural items => items

/-- The contents of fields. -/
def fieldsToJson : List (String × Node) → List (String × Json)
  | [] => []
  | (name, value) :: rest => (name, toJson value) :: fieldsToJson rest
termination_by structural fields => fields

end

mutual

/-- Deep equality of a node with a JSON value. -/
def eqvJson : Node → Json → Bool
  | null, .null => true
  | bool a, .bool b => a == b
  | num a, .num b => a.eqv b
  | str a, .str b => a == b
  | arr _ items, .arr others => eqvJsonItems items others
  | obj _ fields, .obj others => fields.length == others.length && eqvJsonFields fields others
  | _, _ => false
termination_by structural node => node

/-- Equality item by item; lists of unequal length differ. -/
def eqvJsonItems : List Node → List Json → Bool
  | [], [] => true
  | item :: rest, other :: others => eqvJson item other && eqvJsonItems rest others
  | _, _ => false
termination_by structural items => items

/-- Whether each field is found with an equal value among the others. -/
def eqvJsonFields : List (String × Node) → List (String × Json) → Bool
  | [], _ => true
  | (name, value) :: rest, others =>
      (match Table.get? others name with
        | some other => eqvJson value other
        | none => false) && eqvJsonFields rest others
termination_by structural fields => fields

end

/-! ### Equality with a scalar -/

/-- Whether the node is this string. -/
def eqStr (node : Node) (value : String) : Bool := node.str? == some value

/-- Whether the node is this boolean. -/
def eqBool (node : Node) (value : Bool) : Bool := node.bool? == some value

/-- Whether the node is this whole number, read as a signed word. -/
def eqSigned (node : Node) (value : Int) : Bool := node.signed? == some value

/-- Whether the node is this whole number, read as an unsigned word. -/
def eqUnsigned (node : Node) (value : Nat) : Bool := node.unsigned? == some value

end Reducer.Node
