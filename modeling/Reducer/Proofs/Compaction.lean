/-
What is left of an array.

An array is rebuilt in one pass over its slots, each visited at the index it has in the old
array, whatever became of the slots before it.  What the slots hold then is put together, and
if a hole was seen on the way the nulls are dropped.  That check is there to save work and no
more: without a hole there is no null to drop, so the filter could as well always be applied.

So a rebuilt array is `visitSlot` mapped over the old items with their indices and then
`present`, which leaves out what is deleted or null.  No more has to be known of the loop, and
the order of what is left, its length and that there is no null in it are read off that.  Where
a reduction succeeds, the array that was put together so is in the new state.
-/
import Reducer.Proofs.Reduction
import Reducer.Proofs.Sharing

namespace Reducer

open Build

namespace Walker

/-- What a slot holds, if it is neither deleted nor null. -/
def present (slot : Option Node) : Option Node :=
  slot.filter (!·.isNull)

variable {α : Type} {walker : Walker Build α}

/-! ### The filter -/

theorem present_of_isHole {slot : Option Node} (h : isHole slot = true) : present slot = none := by
  cases slot with
  | none => rfl
  | some value => rw [present, Option.filter, ← isHole_some, h]; rfl

theorem present_of_not_isHole {slot : Option Node} (h : isHole slot = false) :
    present slot = slot := by
  cases slot with
  | none => rfl
  | some value => rw [present, Option.filter, ← isHole_some, h]; rfl

/-- Whatever is present is so in a slot that is no hole, in the order of the slots. -/
theorem map_some_filterMap_present (slots : List (Option Node)) :
    (slots.filterMap present).map some = slots.filter fun slot => !isHole slot := by
  induction slots with
  | nil => rfl
  | cons slot rest ih =>
      cases hhole : isHole slot with
      | true => simp [present_of_isHole hhole, hhole, ih]
      | false =>
          obtain ⟨value, rfl⟩ : ∃ value, slot = some value := by
            cases slot with
            | none => cases hhole
            | some value => exact ⟨value, rfl⟩
          simp [present_of_not_isHole hhole, hhole, ih]

/-- **Compaction is the filter alone**, whether or not a hole was seen. -/
theorem compact_eq_present (slots : List (Option Node)) :
    compact slots = slots.filterMap present := by
  rw [compact_eq, ← map_some_filterMap_present, List.map_map]
  exact List.map_id _

theorem length_filterMap_present (slots : List (Option Node)) :
    (slots.filterMap present).length = slots.length ↔ ∀ slot ∈ slots, isHole slot = false := by
  rw [← List.length_map some, map_some_filterMap_present, List.length_filter_eq_length_iff]
  simp

theorem not_isNull_of_mem_present {slots : List (Option Node)} {item : Node}
    (h : item ∈ slots.filterMap present) : item.isNull = false := by
  obtain ⟨slot, -, hitem⟩ := List.mem_filterMap.mp h
  simpa using (Option.filter_eq_some_iff.mp hitem).2

/-! ### The loop -/

theorem visitAll_eq_mapM (visit : Seg → Node → Build (Option Node)) (slots : List (Seg × Node)) :
    visitAll visit slots = slots.mapM fun slot => visit slot.1 slot.2 := by
  induction slots with
  | nil => rfl
  | cons slot rest ih => rw [visitAll, List.mapM_cons, ih]

/-- Visits the items of an array, each at its index in the array before any of them is visited. -/
def visitEach (walker : Walker Build α) (path : Path) (branches : List (Step × Trie α))
    (items : List Node) : Build (List (Option Node)) :=
  items.zipIdx.mapM fun item =>
    walker.visitSlot walker.rebuildFully path branches (.index item.2) item.1

theorem visitEach_eq (walker : Walker Build α) (path : Path) (branches : List (Step × Trie α))
    (label : Label) (items : List Node) :
    walker.visitEach path branches items =
      visitAll (walker.visitSlot walker.rebuildFully path branches)
        (Node.arr label items).slots := by
  rw [visitAll_eq_mapM, Node.slots, List.mapM_map]
  rfl

theorem length_of_visitEach {path : Path} {branches : List (Step × Trie α)} {items : List Node}
    {outcomes : List (Option Node)} {label after : Label}
    (h : (walker.visitEach path branches items).run label = .ok (outcomes, after)) :
    outcomes.length = items.length := by
  rw [visitEach_eq walker path branches 0] at h
  rw [← (forall₂_visitedAt h).length_eq, Node.slots, List.length_map, List.length_zipIdx]

/-- An array is rebuilt by visiting its items and leaving out what is not present. -/
theorem rebuildFrame_arr {frame : Frame α} {old : Label} {items : List Node}
    (hnode : frame.node = .arr old items) :
    walker.rebuildFrame frame = (do
      let outcomes ← walker.visitEach frame.path frame.branches items
      let label ← walker.label
      return Node.arr label (outcomes.filterMap present)).run frame.label := by
  have hcontainer : (Node.arr old items).isContainer = true := rfl
  rw [rebuildFrame, rebuildFully_eq, rebuildSlots_eq, hnode, if_pos hcontainer,
    visitEach_eq walker _ _ old]
  simp only [Node.refill, compact_eq_present]

/-- What is left of the items of an array, by what became of their slots. -/
structure Leaves (items : List Node) (outcomes : List (Option Node)) (left : List Node) :
    Prop where
  /-- Every item was visited, once. -/
  visited : outcomes.length = items.length
  /-- What is left is what is present in the slots. -/
  filtered : left = outcomes.filterMap present
  /-- So there is no null among it. -/
  clean : ∀ item ∈ left, item.isNull = false
  /-- The slots that are no holes are left, each once and in their order. -/
  ordered : left.map some = outcomes.filter fun outcome => !isHole outcome
  /-- As many are left as there were, if there is no hole and only then. -/
  length : left.length = items.length ↔ ∀ outcome ∈ outcomes, isHole outcome = false

theorem leaves_present {items : List Node} {outcomes : List (Option Node)}
    (h : outcomes.length = items.length) : Leaves items outcomes (outcomes.filterMap present) :=
  ⟨h, rfl, fun _ => not_isNull_of_mem_present, map_some_filterMap_present outcomes,
    h ▸ length_filterMap_present outcomes⟩

end Walker

/-- Of an array that is rebuilt with success, there is left what is present in its slots. -/
theorem Pass.leaves_of_rebuildFrame {pass : Pass} {frame : Frame Effect} {old : Label}
    {items : List Node} (hnode : frame.node = .arr old items) {rebuilt : Node} {ending : Label}
    (h : pass.walker.rebuildFrame frame = .ok (rebuilt, ending)) :
    ∃ outcomes new left,
      (pass.walker.visitEach frame.path frame.branches items).run frame.label =
        .ok (outcomes, new) ∧
      rebuilt = .arr new left ∧ Walker.Leaves items outcomes left := by
  rw [Walker.rebuildFrame_arr hnode] at h
  obtain ⟨outcomes, new, hvisits, hrebuilt⟩ := run_bind_ok.mp h
  cases hrebuilt
  have hlength := Walker.length_of_visitEach hvisits
  exact ⟨outcomes, new, _, hvisits, rfl, Walker.leaves_present hlength⟩

namespace Registry

/--
**An array is rebuilt slot by slot and filtered, whether or not it has holes.**  Any array that
the walk of a reduction rebuilds, at any depth, comes to its items visited in order, each at
the index it had and along the same branches, with what is deleted or null left out; that is so
also where a visit fails.  What is left of it are the slots that are no holes, in order and each
once, with no null among them, and as many as there were just if there is no hole.  If the
reduction succeeds then each of these arrays was rebuilt, and what is left of it is in the new
state, in an array where the slots on the way to it have moved; of an array at the root, it is
the new state.
-/
theorem arrays_compacted {registry : Registry} {state : Node} {action : Action} {label : Label}
    {pass : Pass} {start frame : Frame Effect}
    (hstart : registry.Starts state action label pass start)
    (henters : pass.walker.Enters start frame) {old : Label} {items : List Node}
    (hnode : frame.node = .arr old items) :
    pass.walker.rebuildFrame frame = (do
      let outcomes ← pass.walker.visitEach frame.path frame.branches items
      Build.arr (outcomes.filterMap Walker.present)).run frame.label ∧
    (∀ rebuilt ending, pass.walker.rebuildFrame frame = .ok (rebuilt, ending) →
      ∃ outcomes new left,
        (pass.walker.visitEach frame.path frame.branches items).run frame.label =
          .ok (outcomes, new) ∧
        rebuilt = .arr new left ∧ Walker.Leaves items outcomes left) ∧
    ∀ next after, (registry.reduce state action).run label = .ok (next, after) →
      ∃ outcomes new left ending,
        (pass.walker.visitEach frame.path frame.branches items).run frame.label =
          .ok (outcomes, new) ∧
        pass.walker.rebuildFrame frame = .ok (.arr new left, ending) ∧
        Walker.Leaves items outcomes left ∧
        (frame = start → next = .arr new left) ∧
        ∃ moved, next.Moved frame.path moved (.arr new left) := by
  refine ⟨Walker.rebuildFrame_arr hnode, fun rebuilt ending hrebuilt =>
    Pass.leaves_of_rebuildFrame hnode hrebuilt, fun next after hreduce => ?_⟩
  rcases reduce_ok hreduce with ⟨hnone, -⟩ | ⟨other, begin, hother, hrun⟩
  · exact absurd hstart (hnone pass start)
  · obtain ⟨rfl, rfl⟩ := hstart.unique hother
    obtain ⟨rebuilt, ending, hrebuilt, hshares⟩ :=
      Walker.shares_of_enters henters hstart.frame.1 hrun
    obtain ⟨outcomes, new, left, hvisits, rfl, hleaves⟩ :=
      Pass.leaves_of_rebuildFrame hnode hrebuilt
    have hcontainer : frame.node.isContainer = true := by
      rw [hnode]
      rfl
    exact ⟨outcomes, new, left, ending, hvisits, hrebuilt, hleaves,
      fun hframe => (hshares.root hframe).symm, hshares.place hcontainer⟩

/-- A list with a null in it, in an object. -/
def listWithNull : Node :=
  .obj 0 [("list", .arr 1 [.bool true, .null, .bool false])]

/-- Drops the first item of the list. -/
def dropFirst : Registry :=
  ofEffects "drop" [⟨[.key "list", .index 0], some .delete⟩]

/-- Where the first item is dropped, the null that nothing was done to goes with it. -/
theorem arrays_compacted_dropFirst :
    ∃ pass start frame next after outcomes new,
      dropFirst.Starts listWithNull ⟨"drop", .null⟩ 2 pass start ∧
      pass.walker.Enters start frame ∧ frame.path = [.key "list"] ∧
      frame.node = .arr 1 [.bool true, .null, .bool false] ∧
      (dropFirst.reduce listWithNull ⟨"drop", .null⟩).run 2 = .ok (next, after) ∧
      next = .obj 3 [("list", .arr 2 [.bool false])] ∧
      (pass.walker.visitEach frame.path frame.branches [.bool true, .null, .bool false]).run
        frame.label = .ok (outcomes, new) ∧
      outcomes = [none, some .null, some (.bool false)] ∧
      pass.walker.rebuildFrame frame = .ok (.arr new [.bool false], new + 1) ∧
      Walker.Leaves [.bool true, .null, .bool false] outcomes [.bool false] ∧
      ∃ moved, next.Moved [.key "list"] moved (.arr new [.bool false]) := by
  let pass : Pass := ⟨⟨"drop", .null⟩, listWithNull, listWithNull⟩
  let below : List (Step × Trie Effect) := [(.literal (.index 0), .node [.delete] [])]
  let trie : Trie Effect := .node [] [(.literal (.key "list"), .node [] below)]
  let start : Frame Effect := ⟨[], trie.branches, listWithNull, 2⟩
  have hstart : dropFirst.Starts listWithNull ⟨"drop", .null⟩ 2 pass start := .mk rfl rfl
  have hvisit : pass.walker.Visits start (.key "list")
      (.arr 1 [.bool true, .null, .bool false]) 2 := ⟨[], [], [], rfl, rfl⟩
  have henters : pass.walker.Enters start ⟨[.key "list"], below, _, 2⟩ :=
    .single (.mk hvisit rfl (List.cons_ne_nil _ _))
  have hreduce : (dropFirst.reduce listWithNull ⟨"drop", .null⟩).run 2 =
      .ok (.obj 3 [("list", .arr 2 [.bool false])], 4) := rfl
  obtain ⟨-, -, hcompacted⟩ := arrays_compacted hstart henters rfl
  obtain ⟨outcomes, new, left, ending, hvisits, hrebuilt, hleaves, -, hmoved⟩ :=
    hcompacted _ _ hreduce
  cases hvisits
  cases hrebuilt
  exact ⟨pass, start, _, _, _, _, _, hstart, henters, rfl, rfl, hreduce, rfl, rfl, rfl, rfl,
    hleaves, hmoved⟩

end Registry

end Reducer
