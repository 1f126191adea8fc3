/-
Runs of effects.

An effect looks at the slot's value and at what its callback answers, and then makes
at most one container around them.  The equations say this effect by effect, without
the early returns it is written with.
-/
import Reducer.Effect
import Reducer.Proofs.Draft

namespace Reducer.Effect

open Build

variable (action : Action) (view : Node) (path : Path) (current : Option Node)

/-! ### The equations -/

theorem run_set (callback : Callback) :
    (set callback).run action view path current =
      some <$> draft (callback action view (current.getD .null)) := rfl

theorem run_append (callback : Callback) :
    (append callback).run action view path current = (do
      let item ← draft (callback action view (current.getD .null))
      match appendable? (current.getD .null) with
      | some items => some <$> arr (items ++ [item])
      | none => throw (.appendToOther path)) := by
  dsimp only [run]
  refine bind_congr fun item => ?_
  cases appendable? (current.getD .null) <;> rfl

theorem run_insert (callback : Action → Node → Node → Nat × Draft) :
    (insert callback).run action view path current = (do
      let answer := callback action view (current.getD .null)
      let item ← draft answer.2
      match (current.getD .null).items? with
      | some items =>
          if items.length < answer.1 then throw (.outOfBounds path answer.1 items.length)
          else some <$> arr (items.take answer.1 ++ item :: items.drop answer.1)
      | none => throw (.wrongKind path .array (current.getD .null).kind)) := by
  dsimp only [run]
  refine bind_congr fun item => ?_
  cases (current.getD .null).items? with
  | none => rfl
  | some items =>
      dsimp only
      split <;> rfl

theorem run_assign (callback : Callback) :
    (assign callback).run action view path current =
      match assignable? (current.getD .null) with
      | some fields => do
          let patch ← draft (callback action view (current.getD .null))
          match assignable? patch with
          | some changes => some <$> obj (Table.merge fields changes)
          | none => throw (.assignToOther path)
      | none => throw (.assignToOther path) := by
  dsimp only [run]
  cases assignable? (current.getD .null) with
  | none => rfl
  | some fields =>
      refine bind_congr fun patch => ?_
      cases assignable? patch <;> rfl

/-! ### Labels are only used up -/

theorem rises_run (effect : Effect) : Rises (effect.run action view path current) := by
  have hsome : ∀ {work : Build Node}, Rises work → Rises (some <$> work) :=
    fun h => rises_bind h fun value => rises_pure _
  cases effect with
  | set callback => exact hsome (rises_draft _)
  | append callback =>
      rw [run_append]
      refine rises_bind (rises_draft _) fun item => ?_
      split
      · exact hsome (rises_arr _)
      · exact rises_throw _
  | insert callback =>
      rw [run_insert]
      refine rises_bind (rises_draft _) fun item => ?_
      split
      · split
        · exact rises_throw _
        · exact hsome (rises_arr _)
      · exact rises_throw _
  | assign callback =>
      rw [run_assign]
      split
      · refine rises_bind (rises_draft _) fun patch => ?_
        split
        · exact hsome (rises_obj _)
        · exact rises_throw _
      · exact rises_throw _
  | delete => exact rises_pure none

/-- Runs effects one after the other, each on what the one before it left. -/
def runAll (effects : List Effect) (action : Action) (view : Node) (path : Path)
    (current : Option Node) : Build (Option Node) :=
  effects.foldlM (fun current effect => effect.run action view path current) current

theorem rises_runAll (effects : List Effect) : Rises (runAll effects action view path current) := by
  induction effects generalizing current with
  | nil => exact rises_pure current
  | cons effect rest ih => exact rises_bind (rises_run action view path current effect) ih

end Reducer.Effect
