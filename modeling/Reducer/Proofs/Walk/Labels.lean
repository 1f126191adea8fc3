/-
The labels a walk gives out.

A walk of effects takes every label it uses from the supply, so labels only rise
along it, whatever it does to which slot.  A container that is rebuilt gets its label
after its slots were visited; it is therefore newer than the frame, and newer than
everything the frame was given.
-/
import Reducer.Proofs.Effect
import Reducer.Proofs.Node
import Reducer.Proofs.Walk.Frames
import Reducer.Reduce

namespace Reducer

open Build

namespace Walker

variable {α : Type} {walker : Walker Build α}

/-- A walker that takes its labels from the supply. -/
structure Fresh (walker : Walker Build α) : Prop where
  act : ∀ path value current, Rises (walker.act path value current)
  label : walker.label = fresh

namespace Fresh

theorem rises_actAll (h : walker.Fresh) (path : Path) (values : List α) (current : Option Node) :
    Rises (walker.actAll path values current) := by
  induction values generalizing current with
  | nil => exact rises_pure current
  | cons value rest ih => exact rises_bind (h.act path value current) ih

theorem rises_settle (h : walker.Fresh) (path : Path) (seg : Seg) (branches : List (Step × Trie α))
    (current : Option Node) : Rises (walker.settle path seg branches current) := by
  induction branches generalizing current with
  | nil => exact rises_pure _
  | cons branch rest ih =>
      obtain ⟨step, trie⟩ := branch
      unfold settle
      split
      · refine rises_bind (h.rises_actAll _ _ _) fun next => ?_
        exact rises_bind (ih next) fun result => rises_pure _
      · exact ih current

theorem rises_visitSlot (h : walker.Fresh)
    {deeper : Path → List (Step × Trie α) → Node → Build Node}
    (hdeeper : ∀ path branches node, Rises (deeper path branches node)) (path : Path)
    (branches : List (Step × Trie α)) (seg : Seg) (child : Node) :
    Rises (walker.visitSlot deeper path branches seg child) := by
  refine rises_bind (h.rises_settle _ _ _ _) fun result => ?_
  obtain ⟨current, below⟩ := result
  cases current with
  | none => exact rises_pure none
  | some value =>
      show Rises (if below.isEmpty then pure (some value) else _)
      split
      · exact rises_pure _
      · exact rises_bind (hdeeper _ _ _) fun rebuilt => rises_pure _

theorem rises_rebuild (h : walker.Fresh) (levels : Nat) (path : Path)
    (branches : List (Step × Trie α)) (node : Node) :
    Rises (walker.rebuild levels path branches node) := by
  induction levels generalizing path branches node with
  | zero => exact rises_pure node
  | succ levels ih =>
      rw [rebuild, rebuildSlots_eq]
      split
      · refine rises_bind (rises_visitAll (h.rises_visitSlot ih path branches) _) fun outcomes => ?_
        rw [h.label]
        exact rises_bind rises_fresh fun label => rises_pure _
      · exact rises_pure node

/-- The slots of a frame are visited at labels no smaller than its own. -/
theorem rises_visits (h : walker.Fresh) (frame : Frame α) :
    Rises (visitAll (walker.visitSlot walker.rebuildFully frame.path frame.branches)
      frame.node.slots) :=
  rises_visitAll (h.rises_visitSlot (fun _ _ _ => h.rises_rebuild _ _ _ _) _ _) _

theorem le_of_visits (h : walker.Fresh) {frame : Frame α} {seg : Seg} {child : Node}
    {start : Label} (hvisit : walker.Visits frame seg child start) : frame.label ≤ start := by
  obtain ⟨before, _, done, _, hbefore⟩ := hvisit
  exact rises_visitAll (h.rises_visitSlot (fun _ _ _ => h.rises_rebuild _ _ _ _) _ _) before
    _ _ _ hbefore

theorem le_of_descends (h : walker.Fresh) {frame deeper : Frame α}
    (hdescends : walker.Descends frame deeper) : frame.label ≤ deeper.label := by
  obtain ⟨hvisit, hsettle, -⟩ := hdescends
  exact Nat.le_trans (h.le_of_visits hvisit) (h.rises_settle _ _ _ _ _ _ _ hsettle)

/-- **A rebuilt container is newer than the frame it was rebuilt in.** -/
theorem label_rebuildFrame (h : walker.Fresh) {frame : Frame α} {rebuilt : Node} {after : Label}
    (hnode : frame.node.isContainer = true)
    (hrun : walker.rebuildFrame frame = .ok (rebuilt, after)) :
    ∃ label, rebuilt.label? = some label ∧ frame.label ≤ label := by
  obtain ⟨outcomes, between, new, hvisits, hlabel, rfl⟩ := rebuildFrame_ok hnode hrun
  have hle : frame.label ≤ between := h.rises_visits frame _ _ _ hvisits
  rw [h.label, run_fresh] at hlabel
  cases hlabel
  refine ⟨between, ?_, hle⟩
  rcases Node.arr_or_obj hnode with ⟨label, items, hframe⟩ | ⟨label, fields, hframe⟩ <;>
    rw [hframe] <;> rfl

end Fresh

end Walker

namespace Pass

theorem fresh_walker (pass : Pass) : pass.walker.Fresh :=
  ⟨fun path effect current => Effect.rises_run pass.action pass.view path current effect, rfl⟩

end Pass

end Reducer
