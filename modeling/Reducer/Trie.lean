/-
Tries of steps.

All effects of one action type are merged into one trie.  A step leads from a node
to the children of a container: a literal step to the child of that name, a
predicate to every child it holds of.  Values lie at the node their steps end at, in
the order they came.

A predicate may be *unmapped*: it came from redirects, and sees the state as it is
and not the view.  Unmapped or not, a predicate makes different steps.

`insert` follows equal steps as far as there are any, so no node has two branches
with equal steps, and a trie is determined by the list of what was inserted.
-/
import Reducer.Redirects

namespace Reducer

/-- One step down. -/
inductive Step
  /-- To the child of this name. -/
  | literal (seg : Seg)
  /-- To every child the predicate holds of. -/
  | predicate (test : Predicate) (unmapped : Bool)

namespace Step

/-- Equal names, or the same predicate with the same state to see. -/
instance : BEq Step := ⟨fun
  | literal a, literal b => a == b
  | predicate a unmapped, predicate b other => a == b && unmapped == other
  | _, _ => false⟩

/-- The step of one part of a slice. -/
def ofPart (unmapped : Bool) : Part → Step
  | .key name => literal (.key name)
  | .index position => literal (.index position)
  | .predicate test => predicate test unmapped

/-- Whether the step is a predicate. -/
def isPredicate : Step → Bool
  | literal _ => false
  | predicate _ _ => true

end Step

/--
The steps of a slice.  Where the first part is a redirected property, its slice comes
in its place, and the predicates of that slice are unmapped.
-/
def Slice.steps (slice : Slice) (redirects : Option Redirects) : List Step :=
  match slice, redirects with
  | .key name :: rest, some redirects =>
      match Table.get? redirects name with
      | some target => target.map (Step.ofPart true) ++ rest.map (Step.ofPart false)
      | none => slice.map (Step.ofPart false)
  | _, _ => slice.map (Step.ofPart false)

/-- Values along lists of steps. -/
inductive Trie (α : Type)
  | node (values : List α) (branches : List (Step × Trie α))

namespace Trie

variable {α : Type}

/-- A trie without values. -/
def empty : Trie α := node [] []

instance : Inhabited (Trie α) := ⟨empty⟩

/-- The values at the top, in the order they came. -/
def values : Trie α → List α
  | node values _ => values

/-- The tries one step further, in the order they came. -/
def branches : Trie α → List (Step × Trie α)
  | node _ branches => branches

/-- Changes the branch of a step, making one at the end if there is none. -/
def graft (branches : List (Step × Trie α)) (step : Step) (change : Trie α → Trie α) :
    List (Step × Trie α) :=
  match branches with
  | [] => [(step, change empty)]
  | (other, trie) :: rest =>
      if other == step then (other, change trie) :: rest
      else (other, trie) :: graft rest step change

/-- Puts a value at the end of the steps, after those that are there. -/
def insert : Trie α → List Step → α → Trie α
  | node values branches, [], value => node (values ++ [value]) branches
  | node values branches, step :: rest, value =>
      node values (graft branches step fun trie => insert trie rest value)

/-- The branch of a literal step. -/
def literalBranch? (trie : Trie α) (seg : Seg) : Option (Trie α) :=
  (trie.branches.find? fun branch => branch.1 == .literal seg).map (·.2)

/-- The branches of predicates. -/
def predicateBranches (trie : Trie α) : List (Step × Trie α) :=
  trie.branches.filter fun branch => branch.1.isPredicate

/-! ### Measures -/

mutual

/-- The length of the longest way down. -/
def height : Trie α → Nat
  | node _ branches => branchesHeight branches
termination_by structural trie => trie

/-- The length of the longest way down through some branch. -/
def branchesHeight : List (Step × Trie α) → Nat
  | [] => 0
  | (_, trie) :: rest => max (height trie + 1) (branchesHeight rest)
termination_by structural branches => branches

end

mutual

/-- How many nodes lie below the top. -/
def descendants : Trie α → Nat
  | node _ branches => branchesDescendants branches
termination_by structural trie => trie

/-- How many nodes the branches have. -/
def branchesDescendants : List (Step × Trie α) → Nat
  | [] => 0
  | (_, trie) :: rest => 1 + descendants trie + branchesDescendants rest
termination_by structural branches => branches

end

end Trie

end Reducer
