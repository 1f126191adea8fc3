/-
Slices: places named before the tree is known.

A slice is what a reaction declares.  Its parts are keys, indices and predicates; a
key or an index names one child, a predicate every child it holds of.  Predicates
are compared by identity alone, so a slice equals another only where both use the
very same predicates, and two predicates that decide alike stay apart.  In messages
they are told apart by the lines they were declared in.

Resolving a slice follows it down to one node: where a part is a predicate, the
first child it holds of is taken.
-/
import Reducer.Action
import Reducer.Node.Basic

namespace Reducer

/-- A line of a source file. -/
structure Site where
  file : String
  line : Nat
  deriving DecidableEq, Repr

/-- A test of the children of a container, as it was declared. -/
structure Test where
  /-- Whether a child is meant: the action, the state, the child, and its name. -/
  holds : Action → Node → Node → Seg → Bool
  /-- Where the test was declared, if that was in a source file. -/
  site : Option Site

/-- A test with an identity. -/
structure Predicate where
  /-- What tells this predicate from all others. -/
  id : Nat
  /-- What was declared. -/
  test : Test

namespace Predicate

/-- Whether a child is meant. -/
def holds (predicate : Predicate) : Action → Node → Node → Seg → Bool :=
  predicate.test.holds

/-- A predicate has no text of its own; it is known by where it was declared. -/
def text (predicate : Predicate) : String :=
  match predicate.test.site with
  | some site => "<match@" ++ site.file ++ ":" ++ toString site.line ++ ">"
  | none => "<match>"

end Predicate

/-- Predicates are equal when they are the same predicate. -/
instance : BEq Predicate := ⟨fun a b => a.id == b.id⟩

/-- One part of a slice. -/
inductive Part
  | key (name : String)
  | index (position : Nat)
  | predicate (test : Predicate)

namespace Part

/-- Equal keys, equal indices, or the same predicate. -/
instance : BEq Part := ⟨fun
  | key a, key b => a == b
  | index a, index b => a == b
  | predicate a, predicate b => a == b
  | _, _ => false⟩

/-- The segment this part is, if it names one child. -/
def seg? : Part → Option Seg
  | key name => some (.key name)
  | index position => some (.index position)
  | predicate _ => none

/-- The part in the text of a slice. -/
def text : Part → String
  | key name => name
  | index position => toString position
  | predicate test => test.text

/-- The first child that a predicate holds of, items by index and fields by key. -/
def firstChild? (holds : Node → Seg → Bool) : Node → Option Node
  | .arr _ items => (items.zipIdx.find? fun item => holds item.1 (.index item.2)).map (·.1)
  | .obj _ fields => (fields.find? fun field => holds field.2 (.key field.1)).map (·.2)
  | _ => none

/-- The child of `node` that this part designates; `root` is the state predicates see. -/
def resolve (part : Part) (action : Action) (root node : Node) : Option Node :=
  match part with
  | key name => node.child? (.key name)
  | index position => node.child? (.index position)
  | predicate test => firstChild? (test.holds action root) node

end Part

/-- Where in a state an effect applies. -/
abbrev Slice := List Part

namespace Slice

/-- The slice in messages. -/
def text (slice : Slice) : String :=
  String.intercalate "." (slice.map Part.text)

/-- Follows the parts from `node` down. -/
def resolveFrom (action : Action) (root : Node) : Node → Slice → Option Node
  | node, [] => some node
  | node, part :: rest => (part.resolve action root node).bind (resolveFrom action root · rest)

/-- The node a slice leads to from the root, with the root as the state predicates see. -/
def resolve (slice : Slice) (action : Action) (root : Node) : Option Node :=
  resolveFrom action root root slice

end Slice

end Reducer
