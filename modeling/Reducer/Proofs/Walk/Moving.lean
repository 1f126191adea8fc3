/-
Where a walk puts what it rebuilds.

A container that was rebuilt is put into the one around it, in the slot it was taken from, and
so on up to the root.  A key stays where it is in that.  An array loses the slots that are
holes, and then an item may come to a lower index; but what is left keeps its order, and
`origins` lists the positions it comes from.

So what was rebuilt is in the tree that a walk leaves, at a place that its path tells up to
how far the indices have moved: `Enters.trail`, by induction on the way down.
-/
import Mathlib.Data.List.Range
import Reducer.Proofs.Walk.Runs

namespace Reducer

open Build

theorem Node.isNull_of_isContainer {node : Node} (h : node.isContainer = true) :
    node.isNull = false := by
  cases node <;> first | rfl | cases h

/-- Where the child of this name may be after a rebuild: at its key, or at its index or before. -/
inductive Seg.MovesTo : Seg → Seg → Prop
  | key {name} : MovesTo (.key name) (.key name)
  | index {position other} (h : other ≤ position) : MovesTo (.index position) (.index other)

/-- A rebuilt tree has a value where every slot on the way to its place may have moved. -/
abbrev Node.Moved (next : Node) (place moved : Path) (value : Node) : Prop :=
  next.Trail (fun seg _ other => seg.MovesTo other) place moved value

namespace Walker

/-! ### Compaction -/

@[simp] theorem isHole_none : isHole none = true := rfl

@[simp] theorem isHole_some (item : Node) : isHole (some item) = item.isNull := rfl

/-- Compaction drops every hole, whether or not it saw one. -/
theorem compact_eq (slots : List (Option Node)) :
    compact slots = (slots.filter fun slot => !isHole slot).map fun slot => slot.getD .null := by
  have hfilter : (slots.filterMap id).filter (fun item => !item.isNull) =
      (slots.filter fun slot => !isHole slot).map fun slot => slot.getD .null := by
    induction slots with
    | nil => rfl
    | cons slot rest ih =>
        cases slot with
        | none => simpa using ih
        | some item => cases hitem : item.isNull <;> simpa [hitem] using ih
  unfold compact
  by_cases hholes : slots.any isHole = true
  · rw [if_pos hholes, hfilter]
  · rw [if_neg hholes, ← hfilter, List.filter_eq_self.mpr]
    intro item hitem
    have hmem : some item ∈ slots := by simpa using hitem
    rw [List.any_eq_true, not_exists] at hholes
    simpa [hmem] using hholes (some item)

/-- The positions of the slots that are no holes. -/
def origins (slots : List (Option Node)) : List Nat :=
  (slots.zipIdx.filter fun slot => !isHole slot.1).map (·.2)

theorem origins_pairwise (slots : List (Option Node)) : (origins slots).Pairwise (· < ·) := by
  have hsublist : (origins slots).Sublist (slots.zipIdx.map (·.2)) :=
    List.filter_sublist.map _
  refine List.Pairwise.sublist hsublist ?_
  rw [List.zipIdx_map_snd]
  exact List.pairwise_lt_range'

theorem compact_eq_origins (slots : List (Option Node)) :
    compact slots =
      (slots.zipIdx.filter fun slot => !isHole slot.1).map fun slot => slot.1.getD .null := by
  rw [compact_eq]
  conv_lhs => rw [← List.zipIdx_map_fst 0 slots]
  rw [List.filter_map, List.map_map]
  rfl

theorem length_origins (slots : List (Option Node)) :
    (origins slots).length = (compact slots).length := by
  rw [compact_eq_origins, origins, List.length_map, List.length_map]

/-- An item left by compaction is the slot at its origin. -/
theorem getElem?_of_origins {slots : List (Option Node)} {position source : Nat} {item : Node}
    (horigin : (origins slots)[position]? = some source)
    (hitem : (compact slots)[position]? = some item) : slots[source]? = some (some item) := by
  rw [compact_eq_origins, List.getElem?_map, Option.map_eq_some_iff] at hitem
  rw [origins, List.getElem?_map, Option.map_eq_some_iff] at horigin
  obtain ⟨⟨slot, index⟩, hslot, rfl⟩ := horigin
  obtain ⟨found, hfound, rfl⟩ := hitem
  rw [hslot] at hfound
  cases hfound
  obtain ⟨hmem, hhole⟩ := List.mem_filter.mp (List.mem_of_getElem? hslot)
  have hget : slots[index]? = some slot := by simpa using List.mem_zipIdx_iff_getElem?.mp hmem
  cases slot with
  | none => simp at hhole
  | some value => exact hget

/-- A slot that is no hole is left by compaction. -/
theorem exists_position {slots : List (Option Node)} {source : Nat} {item : Node}
    (hslot : slots[source]? = some (some item)) (hitem : item.isNull = false) :
    ∃ position : Nat, (origins slots)[position]? = some source ∧
      (compact slots)[position]? = some item := by
  have hmem : (some item, source) ∈ slots.zipIdx.filter fun slot => !isHole slot.1 :=
    List.mem_filter.mpr ⟨by simpa [List.mem_zipIdx_iff_getElem?] using hslot, by simp [hitem]⟩
  obtain ⟨position, hposition⟩ := List.mem_iff_getElem?.mp hmem
  refine ⟨position, ?_, ?_⟩
  · rw [origins, List.getElem?_map, hposition]
    rfl
  · rw [compact_eq_origins, List.getElem?_map, hposition]
    rfl

/-- No item comes from a slot before its own position. -/
theorem le_of_getElem?_origins {slots : List (Option Node)} {position source : Nat}
    (h : (origins slots)[position]? = some source) : position ≤ source := by
  induction position generalizing source with
  | zero => exact Nat.zero_le _
  | succ position ih =>
      obtain ⟨hlength, rfl⟩ := List.getElem?_eq_some_iff.mp h
      have hbefore := ih (List.getElem?_eq_getElem (Nat.lt_of_succ_lt hlength))
      have hless := List.pairwise_iff_getElem.mp (origins_pairwise slots) position (position + 1)
        (Nat.lt_of_succ_lt hlength) hlength (Nat.lt_succ_self _)
      omega

/-! ### From a slot to the root -/

variable {α : Type} {walker : Walker Build α} {start frame : Frame α}

/-- A container that is rebuilt has what its slots were left with, except for nulls in an array. -/
theorem exists_slot_refill {node child value : Node} {outcomes : List (Option Node)} {seg : Seg}
    (label : Label) (h : ((seg, child), some value) ∈ node.slots.zip outcomes)
    (hvalue : value.isNull = false ∨ ∃ name, seg = .key name) :
    ∃ other, seg.MovesTo other ∧ (other, value) ∈ (node.refill label outcomes).slots := by
  rcases Node.arr_or_obj (Node.isContainer_of_mem_slots (List.of_mem_zip h).1) with
    ⟨old, items, rfl⟩ | ⟨old, fields, rfl⟩
  · obtain ⟨source, hsource⟩ := List.mem_iff_getElem?.mp h
    obtain ⟨hslot, houtcome⟩ := List.getElem?_zip_eq_some.mp hsource
    rw [Node.slots, List.getElem?_map, List.getElem?_zipIdx, Option.map_map,
      Option.map_eq_some_iff] at hslot
    obtain ⟨item, -, hitem⟩ := hslot
    cases hitem
    have hnull : value.isNull = false := by
      rcases hvalue with hnull | ⟨name, hname⟩
      · exact hnull
      · cases hname
    obtain ⟨position, horigin, hposition⟩ := exists_position houtcome hnull
    refine ⟨.index position, .index ?_, Node.mem_slots_of_child? hposition⟩
    rw [Nat.zero_add]
    exact le_of_getElem?_origins horigin
  · rw [Node.slots, List.zip_map_left] at h
    obtain ⟨⟨field, outcome⟩, hfield, heq⟩ := List.mem_map.mp h
    cases heq
    have hkept := Node.mem_keepFields_of_mem_zip hfield
    exact ⟨.key field.1, .key, List.mem_map.mpr ⟨_, hkept, rfl⟩⟩

/-- Where a walk succeeds, a frame that it entered has moved with the slots above it. -/
theorem Enters.trail {next : Node} {after : Label} (h : walker.Enters start frame)
    (hroot : start.path = []) (hstart : walker.rebuildFrame start = .ok (next, after))
    (hnode : frame.node.isContainer = true) :
    ∃ rebuilt ending moved, walker.rebuildFrame frame = .ok (rebuilt, ending) ∧
      next.Moved frame.path moved rebuilt := by
  induction h with
  | refl =>
      rw [hroot]
      exact ⟨next, after, [], hstart, .nil⟩
  | @tail frame deeper _ hlast ih =>
      obtain ⟨hvisit, _, _⟩ := id hlast
      obtain ⟨rebuilt, ending, moved, hframe, htrail⟩ := ih hvisit.isContainer
      obtain ⟨outcomes, between, new, hvisits, -, rfl⟩ := rebuildFrame_ok hvisit.isContainer hframe
      obtain ⟨seg, child, inner, last, hpath, hdeeper, hslot⟩ := hlast.rebuildFrame hvisits
      -- What is a container stays one, so the slot is no hole, and it is not lost.
      have hnull : inner.isNull = false := by
        rw [Node.isNull_eq_of_kind (kind_rebuildFrame hdeeper)]
        exact Node.isNull_of_isContainer hnode
      obtain ⟨other, hmoves, hother⟩ := exists_slot_refill new hslot (Or.inl hnull)
      rw [hpath]
      exact ⟨inner, last, moved ++ [other], hdeeper, htrail.snoc hother hmoves⟩

end Walker

end Reducer
