/-
Assigning to a slot.

An effect that assigns writes the fields of a patch over those of the object in its slot, and
leaves a new object around what comes of it.  So a row of such effects leaves the tables of
their patches written one over the other, from the object on that was there first:
`leaves_of_patches`, by induction on the row.  What is true of writing tables over tables is
then true of assigning, to the order of the fields and the nodes in them.

A patch may be built anew each time or be a node that was there before.  All that is asked of it
is that it has the same fields whatever the slot holds.  A null patch is one without fields, and
a slot that is null or deleted is taken for an object without fields.
-/
import Reducer.Proofs.Effect
import Reducer.Proofs.Merge
import Reducer.Reduce

namespace Reducer.Pass

open Build

/-- The effect assigns a patch with these fields, whatever is in the slot. -/
def Patches (pass : Pass) (effect : Effect) (changes : Table Node) : Prop :=
  ∃ callback, effect = .assign callback ∧ ∀ value label, Effect.assignable?
    ((callback pass.action pass.view value).build label).1 = some changes

/-- Effects that run on a slot one after the other leave a new object with these fields. -/
def Leaves (pass : Pass) (path : Path) (effects : List Effect) (current : Option Node)
    (fields : Table Node) : Prop :=
  ∀ label, ∃ made after, label ≤ made ∧
    (pass.walker.actAll path effects current).run label = .ok (some (.obj made fields), after)

/-- Assigning to an object overrides it field by field, first by one patch and then by another. -/
structure Overrides (pass : Pass) (path : Path) (first second : Effect)
    (base patch later : Table Node) : Prop where
  /-- Assigned one after the other, the patches leave what is left when the second is assigned to
  the first and the outcome then to the object. -/
  joint : ∃ fields combined,
    (∀ label, pass.Leaves path [first, second] (some (.obj label base)) fields) ∧
    (∀ label, pass.Leaves path [second] (some (.obj label patch)) combined) ∧
    ∀ both, pass.Patches both combined →
      ∀ label, pass.Leaves path [both] (some (.obj label base)) fields
  /-- A patch that is assigned twice leaves what it leaves the first time. -/
  again : ∃ fields, ∀ label,
    pass.Leaves path [first] (some (.obj label base)) fields ∧
    pass.Leaves path [first, first] (some (.obj label base)) fields
  /-- A patch that is null, or an object without fields, changes neither fields nor their order. -/
  nothing : ∀ idle, pass.Patches idle [] →
    ∀ label, pass.Leaves path [idle] (some (.obj label base)) base
  /-- Keys keep their place and new ones follow in the order of the patch; under the keys of the
  patch are its nodes, and under all others the nodes that were there. -/
  fields : ∃ fields, (∀ label, pass.Leaves path [first] (some (.obj label base)) fields) ∧
    Table.keys fields =
      Table.keys base ++ (Table.keys patch).filter (· ∉ Table.keys base) ∧
    (∀ key node, Table.get? patch key = some node → Table.get? fields key = some node) ∧
    ∀ key, Table.get? patch key = none → Table.get? fields key = Table.get? base key
  /-- In a slot that is deleted or null, patches leave what they leave in an object without
  fields. -/
  absent : ∀ effects tables, List.Forall₂ pass.Patches effects tables → effects ≠ [] →
    ∃ fields, pass.Leaves path effects none fields ∧
      pass.Leaves path effects (some .null) fields ∧
      ∀ label, pass.Leaves path effects (some (.obj label [])) fields

variable {pass : Pass} {path : Path} {effect first second : Effect} {effects : List Effect}
  {current : Option Node} {base changes patch later : Table Node} {tables : List (Table Node)}

/-! ### A row of effects -/

/-- One patch is written over what the slot has. -/
theorem Patches.run (h : pass.Patches effect changes)
    (hcurrent : Effect.assignable? (current.getD .null) = some base) (label : Label) :
    ∃ made, label ≤ made ∧ (pass.walker.act path effect current).run label =
      .ok (some (.obj made (Table.merge base changes)), made + 1) := by
  obtain ⟨callback, rfl, hpatch⟩ := h
  have hact : pass.walker.act path (.assign callback) current =
      (Effect.assign callback).run pass.action pass.view path current := rfl
  refine ⟨_, Draft.le_build (callback pass.action pass.view (current.getD .null)) label, ?_⟩
  rw [hact, Effect.run_assign, hcurrent]
  dsimp only
  rw [run_bind, run_draft]
  dsimp only
  rw [hpatch]
  rfl

/-- **A row of patches is written over what the slot has, one after the other.** -/
theorem leaves_of_patches (h : List.Forall₂ pass.Patches effects tables) (hsome : effects ≠ [])
    (hcurrent : Effect.assignable? (current.getD .null) = some base) :
    pass.Leaves path effects current (tables.foldl Table.merge base) := by
  induction h generalizing current base with
  | nil => exact absurd rfl hsome
  | @cons effect changes rest others hfirst _ ih =>
      intro label
      obtain ⟨made, hmade, hrun⟩ := hfirst.run hcurrent label
      rw [Walker.actAll, run_bind, hrun]
      cases rest with
      | nil =>
          cases ‹List.Forall₂ _ _ _›
          exact ⟨made, made + 1, hmade, rfl⟩
      | cons next rest =>
          have hcurrent : Effect.assignable?
              ((some (Node.obj made (Table.merge base changes))).getD .null) = some _ := rfl
          obtain ⟨last, after, hlast, hrest⟩ := ih (List.cons_ne_nil _ _) hcurrent (made + 1)
          exact ⟨last, after, Nat.le_trans hmade (Nat.le_of_succ_le hlast), hrest⟩

theorem Patches.leaves (h : pass.Patches effect changes)
    (hcurrent : Effect.assignable? (current.getD .null) = some base) :
    pass.Leaves path [effect] current (Table.merge base changes) :=
  leaves_of_patches (.cons h .nil) (List.cons_ne_nil _ _) hcurrent

theorem Patches.leaves_both (h : pass.Patches first changes) (hsecond : pass.Patches second later)
    (hcurrent : Effect.assignable? (current.getD .null) = some base) :
    pass.Leaves path [first, second] current (Table.merge (Table.merge base changes) later) :=
  leaves_of_patches (.cons h (.cons hsecond .nil)) (List.cons_ne_nil _ _) hcurrent

/-! ### The laws of assigning -/

/--
**Assigning is an ordered override, and associative.**  Whatever object a slot holds, and
whatever the fields of two patches, the second patch may as well be assigned to the first
before that is assigned to the object: the same fields are left in the same order, with the
same nodes.
-/
theorem overrides_of_patches (path : Path) (hbase : Table.Distinct base)
    (hpatch : Table.Distinct patch) (hlater : Table.Distinct later)
    (hfirst : pass.Patches first patch) (hsecond : pass.Patches second later) :
    pass.Overrides path first second base patch later := by
  refine ⟨?_, ?_, ?_, ?_, ?_⟩
  · refine ⟨_, _, fun _ => hfirst.leaves_both hsecond rfl, fun _ => hsecond.leaves rfl,
      fun both hboth _ => ?_⟩
    rw [Table.merge_assoc hbase hpatch hlater]
    exact hboth.leaves rfl
  · refine ⟨_, fun label => ⟨hfirst.leaves rfl, ?_⟩⟩
    rw [← Table.merge_merge_self hbase hpatch]
    exact hfirst.leaves_both hfirst rfl
  · exact fun idle hidle _ => hidle.leaves rfl
  · refine ⟨_, fun _ => hfirst.leaves rfl, Table.keys_merge_of_distinct base hpatch, ?_, ?_⟩
    · intro key node hnode
      rw [Table.get?_merge_of_distinct base hpatch, hnode, Option.some_or]
    · intro key hnone
      rw [Table.get?_merge_of_distinct base hpatch, hnone, Option.none_or]
  · intro effects tables heffects hsome
    exact ⟨_, leaves_of_patches heffects hsome rfl, leaves_of_patches heffects hsome rfl,
      fun _ => leaves_of_patches heffects hsome rfl⟩

/-! ### An entry of a list that is done, and then taken over -/

/-- The reduction of an action that is empty. -/
def ofNothing : Pass := ⟨.empty, .null, .null⟩

/-- An entry of a list. -/
def openEntry : Table Node :=
  [("text", .str "a"), ("done", .bool false), ("steps", .arr 1 [])]

/-- Marks an entry as done; the patch is built each time. -/
def marksDone : Effect :=
  .assign fun _ _ _ => .obj [("done", .keep (.bool true)), ("tag", .keep (.str "x"))]

/-- Hands an entry to its new owner; the patch is a node that is there. -/
def handsOver : Effect :=
  .assign fun _ _ _ => .keep (.obj 2 [("owner", .obj 3 []), ("tag", .null)])

/-- What is left is the same either way, and a null patch leaves it as it is. -/
theorem overrides_of_patches_entry :
    Table.Distinct openEntry ∧
    ofNothing.Patches marksDone [("done", .bool true), ("tag", .str "x")] ∧
    ofNothing.Patches handsOver [("owner", .obj 3 []), ("tag", .null)] ∧
    ofNothing.Overrides [] marksDone handsOver openEntry [("done", .bool true), ("tag", .str "x")]
      [("owner", .obj 3 []), ("tag", .null)] ∧
    ofNothing.Leaves [] [marksDone, handsOver] (some (.obj 0 openEntry))
      [("text", .str "a"), ("done", .bool true), ("steps", .arr 1 []), ("tag", .null),
        ("owner", .obj 3 [])] ∧
    ofNothing.Leaves [] [.assign fun _ _ _ => .keep .null] (some (.obj 0 openEntry)) openEntry := by
  have hmarks : ofNothing.Patches marksDone [("done", .bool true), ("tag", .str "x")] :=
    ⟨_, rfl, fun _ _ => rfl⟩
  have hhands : ofNothing.Patches handsOver [("owner", .obj 3 []), ("tag", .null)] :=
    ⟨_, rfl, fun _ _ => rfl⟩
  have hnull : ofNothing.Patches (.assign fun _ _ _ => .keep .null) [] :=
    ⟨_, rfl, fun _ _ => rfl⟩
  have hopen : Table.Distinct openEntry := by decide
  have hlaws : ofNothing.Overrides [] marksDone handsOver openEntry _ _ :=
    overrides_of_patches [] hopen (by decide) (by decide) hmarks hhands
  have hboth : ofNothing.Leaves [] [marksDone, handsOver] (some (.obj 0 openEntry))
      (Table.merge (Table.merge openEntry _) _) := hmarks.leaves_both hhands rfl
  exact ⟨hopen, hmarks, hhands, hlaws, hboth, hlaws.nothing _ hnull 0⟩

end Reducer.Pass
