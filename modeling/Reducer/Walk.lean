/-
The walk of a tree along a trie.

A container is rebuilt along a list of branches.  Each of its slots is settled first:
every branch in turn is tested against what the slot holds at that moment, a branch
that leads there acts on the slot with its values, and the tries below all such
branches are joined.  If the slot still holds a value and there is anything below,
that value is rebuilt along it; otherwise it is carried over as it is.

The walk descends into values that were put there on the way, so no measure of the
tree bounds it.  The trie does: every level goes one step down, and `Trie.height`
levels are all there are.  `rebuild` counts them.

How a slot is acted on is left open, and so is the monad that happens in.  The walk
itself only looks at nodes, so whatever is recorded on the way, it goes the same way.
-/
import Reducer.Trie

namespace Reducer

/-- What a walk does where it comes by. -/
structure Walker (m : Type → Type) (α : Type) where
  /-- Whether a step leads to a child: what the child is, and its name. -/
  leads : Step → Node → Seg → Bool
  /-- Acts on the slot at a path with a value of the trie. -/
  act : Path → α → Option Node → m (Option Node)
  /-- The label of a container that is rebuilt. -/
  label : m Label

namespace Walker

variable {m : Type → Type} [Monad m] {α : Type}

/-- Acts on a slot with several values, one after the other. -/
def actAll (walker : Walker m α) (path : Path) : List α → Option Node → m (Option Node)
  | [], current => pure current
  | value :: rest, current => do
      let current ← walker.act path value current
      actAll walker path rest current

/--
Tries each branch on a slot, in order, and acts with the values of those that lead
there.  Answers what the slot holds in the end, and the branches one level down.
-/
def settle (walker : Walker m α) (path : Path) (seg : Seg) :
    List (Step × Trie α) → Option Node → m (Option Node × List (Step × Trie α))
  | [], current => pure (current, [])
  | (step, trie) :: rest, current => do
      if walker.leads step (current.getD .null) seg then
        let current ← walker.actAll path trie.values current
        let (current, below) ← settle walker path seg rest current
        return (current, trie.branches ++ below)
      else settle walker path seg rest current

/-- Replaces every field, leaving out those that have no value any more. -/
def visitFields (visit : Seg → Node → m (Option Node)) :
    List (String × Node) → m (List (String × Node))
  | [] => pure []
  | (name, value) :: rest => do
      let value ← visit (.key name) value
      let rest ← visitFields visit rest
      return match value with
        | some value => (name, value) :: rest
        | none => rest

/-- Replaces every item, by the position it had. -/
def visitItems (visit : Seg → Node → m (Option Node)) :
    Nat → List Node → m (List (Option Node))
  | _, [] => pure []
  | position, value :: rest => do
      let value ← visit (.index position) value
      let rest ← visitItems visit (position + 1) rest
      return value :: rest

/-- Whether a slot is a hole: deleted, or null. -/
def isHole : Option Node → Bool
  | some value => value.isNull
  | none => true

/-- The items left of an array's slots; one hole is enough for all nulls to go. -/
def compact (slots : List (Option Node)) : List Node :=
  let items := slots.filterMap id
  if slots.any isHole then items.filter (!·.isNull) else items

/-- Rebuilds a container from what becomes of its slots, under a new label; a scalar stays. -/
def rebuildSlots (walker : Walker m α) (visit : Seg → Node → m (Option Node)) : Node → m Node
  | .obj _ fields => do
      let fields ← visitFields visit fields
      return .obj (← walker.label) fields
  | .arr _ items => do
      let slots ← visitItems visit 0 items
      return .arr (← walker.label) (compact slots)
  | scalar => pure scalar

/-- What becomes of one slot: it is settled, and what it holds then goes `deeper` if it must. -/
def visitSlot (walker : Walker m α) (deeper : Path → List (Step × Trie α) → Node → m Node)
    (path : Path) (branches : List (Step × Trie α)) (seg : Seg) (child : Node) :
    m (Option Node) := do
  let (current, below) ← walker.settle (path ++ [seg]) seg branches (some child)
  match current with
  | none => return none
  | some value =>
      if below.isEmpty then return some value
      else return some (← deeper (path ++ [seg]) below value)

/-- Rebuilds a container along branches, at most `levels` deep. -/
def rebuild (walker : Walker m α) : Nat → Path → List (Step × Trie α) → Node → m Node
  | 0, _, _, node => pure node
  | levels + 1, path, branches, node =>
      walker.rebuildSlots (walker.visitSlot (rebuild walker levels) path branches) node

/-- Rebuilds a tree along a trie; the values at the trie's top act nowhere. -/
def walk (walker : Walker m α) (trie : Trie α) (root : Node) : m Node :=
  walker.rebuild (trie.height + 1) [] trie.branches root

end Walker

end Reducer
