/-
Drafts of state trees.

Callbacks compute values but give out no labels: they return drafts.  A draft keeps
nodes that exist, by reference, and lays out the containers to make around them.
Building a draft labels each new container from a supply that only counts upward, so
what is built is never the same node as anything that existed, and what is kept
stays the node it was.

A JSON value is a draft too, one that keeps nothing: every container in it is new
each time it is built.
-/
import Reducer.Node.Json

namespace Reducer

/-- A value to build: nodes to keep, and containers to make around them. -/
inductive Draft
  /-- An existing node, or a scalar. -/
  | keep (node : Node)
  /-- An array to make. -/
  | arr (items : List Draft)
  /-- An object to make; its fields are a table. -/
  | obj (fields : List (String × Draft))

namespace Draft

instance : Inhabited Draft := ⟨keep .null⟩

/-! ### Building -/

mutual

/-- Builds a draft with the labels from `next` on, and says which label comes next. -/
def build : Draft → Label → Node × Label
  | keep node, next => (node, next)
  | arr items, next =>
      let (items, after) := buildItems items (next + 1)
      (.arr next items, after)
  | obj fields, next =>
      let (fields, after) := buildFields fields (next + 1)
      (.obj next fields, after)
termination_by structural draft => draft

/-- Builds items in their order. -/
def buildItems : List Draft → Label → List Node × Label
  | [], next => ([], next)
  | item :: rest, next =>
      let (item, next) := build item next
      let (rest, next) := buildItems rest next
      (item :: rest, next)
termination_by structural items => items

/-- Builds fields in their order. -/
def buildFields : List (String × Draft) → Label → List (String × Node) × Label
  | [], next => ([], next)
  | (name, value) :: rest, next =>
      let (value, next) := build value next
      let (rest, next) := buildFields rest next
      ((name, value) :: rest, next)
termination_by structural fields => fields

end

/-! ### Drafts of JSON values -/

mutual

/-- The draft that makes every container of a JSON value. -/
def ofJson : Json → Draft
  | .null => keep .null
  | .bool value => keep (.bool value)
  | .num value => keep (.num value)
  | .str value => keep (.str value)
  | .arr items => arr (ofItems items)
  | .obj fields => obj (ofFields fields)
termination_by structural value => value

/-- The drafts of items. -/
def ofItems : List Json → List Draft
  | [] => []
  | item :: rest => ofJson item :: ofItems rest
termination_by structural items => items

/-- The drafts of fields. -/
def ofFields : List (String × Json) → List (String × Draft)
  | [] => []
  | (name, value) :: rest => (name, ofJson value) :: ofFields rest
termination_by structural fields => fields

end

/-! ### Reading a draft -/

mutual

/-- The content of what a draft builds. -/
def toJson : Draft → Json
  | keep node => node.toJson
  | arr items => .arr (itemsToJson items)
  | obj fields => .obj (fieldsToJson fields)
termination_by structural draft => draft

/-- The contents of items. -/
def itemsToJson : List Draft → List Json
  | [] => []
  | item :: rest => toJson item :: itemsToJson rest
termination_by structural items => items

/-- The contents of fields. -/
def fieldsToJson : List (String × Draft) → List (String × Json)
  | [] => []
  | (name, value) :: rest => (name, toJson value) :: fieldsToJson rest
termination_by structural fields => fields

end

/-- Whether two drafts build the same node: a container to make is the same as nothing. -/
def same : Draft → Draft → Bool
  | keep a, keep b => a.same b
  | _, _ => false

/-- Deep equality of what two drafts build. -/
def eqv (a b : Draft) : Bool :=
  a.toJson.eqv b.toJson

/-- Which of the six kinds a draft builds. -/
def kind : Draft → Kind
  | keep node => node.kind
  | arr _ => .array
  | obj _ => .object

/-- How many children a draft builds. -/
def size : Draft → Nat
  | keep node => node.size
  | arr items => items.length
  | obj fields => fields.length

/-- The scalar or node a draft keeps. -/
def node? : Draft → Option Node
  | keep node => some node
  | _ => none

end Draft

/-- The node of a JSON value, with labels from `next` on, and the label that comes next. -/
def Node.ofJson (value : Json) (next : Label) : Node × Label :=
  (Draft.ofJson value).build next

end Reducer
