/-
Reducing slice by slice.

There is a plainer way to say what a reduction does when every slice names its place:
take the slices one after the other, and where the tree so far has a value at a slice,
run the slice's effects on it and put the outcome in its place.  That is a sweep.  It
merges nothing into a trie and rebuilds no container on the way; a callback still sees
the view of the state as it was dispatched.

A sweep changes one place at a time, so what is needed of it are the laws of that one
change: what is found at, below and away from the place afterwards.
-/
import Reducer.Proofs.Callback
import Reducer.Reduce
import Reducer.Registry.Basic

namespace Reducer

/-- A path of keys. -/
def Path.Keyed (path : Path) : Prop :=
  ∀ seg ∈ path, ∃ name, seg = .key name

namespace Node

/-- The tree with the value at a path replaced or, for none, left out. -/
def replace (outcome : Option Node) : Path → Node → Option Node
  | [], _ => outcome
  | .key name :: rest, .obj label fields =>
      match Table.get? fields name with
      | some child => some (.obj label (Table.put fields name (replace outcome rest child)))
      | none => some (.obj label fields)
  | _ :: _, node => some node

/-! ### What is found after a replacement -/

theorem replace_cons {outcome : Option Node} {name : String} {rest : Path} {label : Label}
    {fields : List (String × Node)} {child : Node} (h : Table.get? fields name = some child) :
    replace outcome (.key name :: rest) (.obj label fields) =
      some (.obj label (Table.put fields name (replace outcome rest child))) := by
  rw [replace, h]

/-- A tree that has a value at a path of keys is an object with a child at the first key. -/
theorem at?_cons {seg : Seg} {rest : Path} {node value : Node} (hseg : ∃ name, seg = .key name)
    (h : node.at? (seg :: rest) = some value) :
    ∃ name label fields child, seg = .key name ∧ node = .obj label fields ∧
      Table.get? fields name = some child ∧ child.at? rest = some value := by
  obtain ⟨name, rfl⟩ := hseg
  rw [at?, Option.bind_eq_some_iff] at h
  obtain ⟨child, hchild, hrest⟩ := h
  obtain ⟨label, fields, rfl, hget⟩ := child?_key hchild
  exact ⟨name, label, fields, child, rfl, rfl, hget, hrest⟩

/-- At the place itself and below it, the outcome is found. -/
theorem at?_replace_append {slice : Path} (outcome : Option Node) (rest : Path) :
    ∀ {tree value : Node}, slice.Keyed → tree.at? slice = some value →
      (replace outcome slice tree).bind (at? · (slice ++ rest)) = outcome.bind (at? · rest) := by
  induction slice with
  | nil => intro tree value _ _; rfl
  | cons seg others ih =>
      intro tree value hkeyed hvalue
      obtain ⟨hseg, hothers⟩ := List.forall_mem_cons.mp hkeyed
      obtain ⟨name, label, fields, child, rfl, rfl, hget, hchild⟩ := at?_cons hseg hvalue
      rw [replace_cons hget, Option.bind_some, List.cons_append, at?, child?, Table.get?_put,
        if_pos rfl]
      exact ih hothers hchild

/-- At a place that is neither above nor below, nothing has changed. -/
theorem at?_replace_of_not_prefix {slice : Path} (outcome : Option Node) :
    ∀ {tree value : Node} {other : Path}, slice.Keyed → tree.at? slice = some value →
      ¬slice <+: other → ¬other <+: slice →
      (replace outcome slice tree).bind (at? · other) = tree.at? other := by
  induction slice with
  | nil => intro tree value other _ _ hbelow; exact absurd List.nil_prefix hbelow
  | cons seg rest ih =>
      intro tree value other hkeyed hvalue hbelow habove
      obtain ⟨hseg, hrest⟩ := List.forall_mem_cons.mp hkeyed
      obtain ⟨name, label, fields, child, rfl, rfl, hget, hchild⟩ := at?_cons hseg hvalue
      rw [replace_cons hget, Option.bind_some]
      cases other with
      | nil => exact absurd List.nil_prefix habove
      | cons first others =>
          rw [at?, at?]
          cases first with
          | index position => rfl
          | key key =>
              rw [child?, child?, Table.get?_put]
              by_cases hkey : name = key
              · subst hkey
                rw [if_pos rfl, hget]
                refine ih hrest hchild (fun h => hbelow ?_) (fun h => habove ?_)
                · exact List.cons_prefix_cons.mpr ⟨rfl, h⟩
                · exact List.cons_prefix_cons.mpr ⟨rfl, h⟩
              · rw [if_neg hkey]

/-- Only replacing the root can leave no tree. -/
theorem exists_replace {slice : Path} (hslice : slice ≠ []) (outcome : Option Node) (tree : Node) :
    ∃ next, replace outcome slice tree = some next := by
  cases slice with
  | nil => exact absurd rfl hslice
  | cons seg rest =>
      unfold replace
      split
      · contradiction
      · split
        · exact ⟨_, rfl⟩
        · exact ⟨_, rfl⟩
      · exact ⟨_, rfl⟩

theorem distinct_replace {slice : Path} {outcome : Option Node} (houtcome : DistinctSlot outcome) :
    ∀ {tree : Node}, tree.Distinct → DistinctSlot (replace outcome slice tree) := by
  induction slice with
  | nil => intro tree _; exact houtcome
  | cons seg rest ih =>
      intro tree htree next hnext
      unfold replace at hnext
      split at hnext
      · contradiction
      · rename_i name others label fields heq
        cases heq
        obtain ⟨hkeys, hvalues⟩ := distinct_obj.mp htree
        split at hnext
        · rename_i child hget
          cases hnext
          refine distinct_obj.mpr ⟨Table.distinct_put hkeys _ _, fun field hfield => ?_⟩
          rcases Table.mem_put hfield with hmem | hmade
          · exact hvalues field hmem
          · exact ih (hvalues _ (Table.mem_of_get? hget)) field.2 hmade
        · cases hnext
          exact htree
      · cases hnext
        exact htree

/-- Replacing alike outcomes in trees of one content gives trees of one content. -/
theorem toJson_replace {slice : Path} {outcome other : Option Node}
    (houtcome : outcome.map toJson = other.map toJson) :
    ∀ {tree made value found : Node}, slice.Keyed → tree.toJson = made.toJson →
      tree.at? slice = some value → made.at? slice = some found →
      (replace outcome slice tree).map toJson = (replace other slice made).map toJson := by
  induction slice with
  | nil => intro tree made value found _ _ _ _; exact houtcome
  | cons seg rest ih =>
      intro tree made value found hkeyed hcontent hvalue hfound
      obtain ⟨hseg, hrest⟩ := List.forall_mem_cons.mp hkeyed
      obtain ⟨name, label, fields, child, rfl, rfl, hget, hchild⟩ := at?_cons hseg hvalue
      obtain ⟨_, new, others, inner, heq, rfl, hother, hinner⟩ := at?_cons hseg hfound
      cases heq
      rw [toJson_obj, toJson_obj, Json.obj.injEq] at hcontent
      have hsame : child.toJson = inner.toJson := by
        have hlookup := congrArg (Table.get? · name) hcontent
        simpa [Table.get?_mapValues, hget, hother] using hlookup
      rw [replace_cons hget, replace_cons hother, Option.map_some, Option.map_some, toJson_obj,
        toJson_obj, Table.mapValues_put, Table.mapValues_put, hcontent,
        ih hrest hsame hchild hinner]

end Node

/-! ### Sweeps -/

/-- The effects on exactly one slice, in order. -/
def effectsAt (named : List (Path × Effect)) (slice : Path) : List Effect :=
  (named.filter fun entry => entry.1 = slice).map (·.2)

/-- The order has every slice once, and before its extensions. -/
structure Orders (named : List (Path × Effect)) (order : List Path) : Prop where
  mem_iff : ∀ slice, slice ∈ order ↔ ∃ entry ∈ named, entry.1 = slice
  pairwise : order.Pairwise fun slice later => ¬later <+: slice

/-- Runs the effects of one slice on the tree so far; a slice that is absent does nothing. -/
def Pass.visit (pass : Pass) (named : List (Path × Effect)) (tree : Node) (slice : Path) :
    Build Node :=
  match tree.at? slice with
  | none => pure tree
  | some value => do
      let outcome ←
        Effect.runAll (effectsAt named slice) pass.action pass.view slice (some value)
      return (Node.replace outcome slice tree).getD tree

/-- Visits slices one after the other, from the state on. -/
def Pass.sweep (pass : Pass) (named : List (Path × Effect)) (order : List Path) : Build Node :=
  order.foldlM (pass.visit named) pass.root

/-- The state after an action, slice by slice. -/
def Registry.sweep (registry : Registry) (named : List (Path × Effect)) (order : List Path)
    (state : Node) (action : Action) : Build Node := do
  let view ← Redirects.view (registry.redirects? action.type) action state
  Pass.sweep ⟨action, state, view⟩ named order

end Reducer
