/-
State trees with identity.

A state tree is a JSON value whose arrays and objects carry a label.  Two containers
are the same node when they carry the same label, however alike their contents, and
a container passed from one tree to the next keeps its label.  So a reader can tell
what was carried over from what was rebuilt without comparing contents.  Scalars
have no label and are the same when they are equal.

Nothing in the type keeps two nodes of one label alike; that labels are fresh
whenever a container is made is what the building of nodes takes care of.
-/
import Reducer.Json.Basic
import Reducer.Path

namespace Reducer

/-- The identity of a container. -/
abbrev Label := Nat

/-- A state tree; the fields of an object are a table. -/
inductive Node
  | null
  | bool (value : Bool)
  | num (value : Number)
  | str (value : String)
  | arr (label : Label) (items : List Node)
  | obj (label : Label) (fields : List (String × Node))

namespace Node

instance : Inhabited Node := ⟨null⟩

/-- Which of the six kinds a node is. -/
def kind : Node → Kind
  | null => .null
  | bool _ => .boolean
  | num _ => .number
  | str _ => .string
  | arr _ _ => .array
  | obj _ _ => .object

/-- Whether the node is an array or an object. -/
def isContainer : Node → Bool
  | arr _ _ | obj _ _ => true
  | _ => false

/-- Whether the node is null. -/
def isNull : Node → Bool
  | null => true
  | _ => false

/-- How many children a container has; a scalar has none. -/
def size : Node → Nat
  | arr _ items => items.length
  | obj _ fields => fields.length
  | _ => 0

/-- The same node: one label for containers, equality for scalars. -/
def same : Node → Node → Bool
  | null, null => true
  | bool a, bool b => a == b
  | num a, num b => a.eqv b
  | str a, str b => a == b
  | arr a _, arr b _ => a == b
  | obj a _, obj b _ => a == b
  | _, _ => false

/-! ### Looking inside -/

/-- The child a segment names: a key in a mapping, an index in an array. -/
def child? : Node → Seg → Option Node
  | obj _ fields, .key name => Table.get? fields name
  | arr _ items, .index position => items[position]?
  | _, _ => none

/-- The node at a path. -/
def at? : Node → Path → Option Node
  | node, [] => some node
  | node, seg :: rest => (node.child? seg).bind (at? · rest)

/-- The boolean, if the node is one. -/
def bool? : Node → Option Bool
  | bool value => some value
  | _ => none

/-- The string, if the node is one. -/
def str? : Node → Option String
  | str value => some value
  | _ => none

/-- The number, if the node is one. -/
def num? : Node → Option Number
  | num value => some value
  | _ => none

/-- The whole number, if the node is one that fits a signed 64-bit word. -/
def signed? (node : Node) : Option Int :=
  node.num?.bind Number.toSigned?

/-- The whole number, if the node is one that fits an unsigned 64-bit word. -/
def unsigned? (node : Node) : Option Nat :=
  node.num?.bind Number.toUnsigned?

/-- The nearest binary64 number, if the node is a number. -/
def binary64? (node : Node) : Option Binary64 :=
  node.num?.bind Number.toBinary64?

/-- The items, if the node is an array. -/
def items? : Node → Option (List Node)
  | arr _ items => some items
  | _ => none

/-- The fields, if the node is an object. -/
def fields? : Node → Option (Table Node)
  | obj _ fields => some fields
  | _ => none

/-! ### Deep equality

Labels play no part in it, and neither does the order of fields.
-/

mutual

/-- Deep equality of contents. -/
def eqv : Node → Node → Bool
  | null, null => true
  | bool a, bool b => a == b
  | num a, num b => a.eqv b
  | str a, str b => a == b
  | arr _ items, arr _ others => eqvItems items others
  | obj _ fields, obj _ others => fields.length == others.length && eqvFields fields others
  | _, _ => false
termination_by structural a => a

/-- Equality item by item; lists of unequal length differ. -/
def eqvItems : List Node → List Node → Bool
  | [], [] => true
  | a :: rest, b :: others => eqv a b && eqvItems rest others
  | _, _ => false
termination_by structural items => items

/-- Whether each field is found with an equal value among the others. -/
def eqvFields : List (String × Node) → List (String × Node) → Bool
  | [], _ => true
  | (name, value) :: rest, others =>
      (match Table.get? others name with
        | some other => eqv value other
        | none => false) && eqvFields rest others
termination_by structural fields => fields

end

end Node

end Reducer
