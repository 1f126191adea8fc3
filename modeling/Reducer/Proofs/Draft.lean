/-
Building drafts.

A draft is built from its outermost container inward, each container taking the next
label and its children the labels after it, so labels are only ever used up.
-/
import Reducer.Proofs.Build
import Reducer.Proofs.Node

namespace Reducer

namespace Draft

/-- Induction over a draft: a container to make has the property once all it is made of has it. -/
@[elab_as_elim]
theorem draftInduction {motive : Draft → Prop} (keep : ∀ node, motive (.keep node))
    (arr : ∀ items, (∀ item ∈ items, motive item) → motive (.arr items))
    (obj : ∀ fields, (∀ field ∈ fields, motive field.2) → motive (.obj fields))
    (draft : Draft) : motive draft :=
  @Draft.rec motive (fun items => ∀ item ∈ items, motive item)
    (fun fields => ∀ field ∈ fields, motive field.2) (fun field => motive field.2)
    keep arr obj (by simp) (fun _ _ hfirst hrest => List.forall_mem_cons.mpr ⟨hfirst, hrest⟩)
    (by simp) (fun _ _ hfirst hrest => List.forall_mem_cons.mpr ⟨hfirst, hrest⟩)
    (fun _ _ h => h) draft

/-! ### Labels are only used up -/

theorem le_buildItems {items : List Draft} (h : ∀ item ∈ items, ∀ next, next ≤ (build item next).2)
    (next : Label) : next ≤ (buildItems items next).2 := by
  induction items generalizing next with
  | nil => exact Nat.le_refl _
  | cons item rest ih =>
      obtain ⟨hfirst, hrest⟩ := List.forall_mem_cons.mp h
      exact Nat.le_trans (hfirst next) (ih hrest _)

theorem le_buildFields {fields : List (String × Draft)}
    (h : ∀ field ∈ fields, ∀ next, next ≤ (build field.2 next).2) (next : Label) :
    next ≤ (buildFields fields next).2 := by
  induction fields generalizing next with
  | nil => exact Nat.le_refl _
  | cons field rest ih =>
      obtain ⟨hfirst, hrest⟩ := List.forall_mem_cons.mp h
      exact Nat.le_trans (hfirst next) (ih hrest _)

theorem le_build (draft : Draft) : ∀ next, next ≤ (build draft next).2 := by
  induction draft using draftInduction with
  | keep node => exact fun next => Nat.le_refl _
  | arr items ih => exact fun next => Nat.le_trans (Nat.le_succ _) (le_buildItems ih _)
  | obj fields ih => exact fun next => Nat.le_trans (Nat.le_succ _) (le_buildFields ih _)

/-! ### Distinct keys -/

mutual

/-- No object that is kept or made has a key twice. -/
def Distinct : Draft → Prop
  | keep node => node.Distinct
  | arr items => DistinctItems items
  | obj fields => (fields.map (·.1)).Nodup ∧ DistinctFields fields
termination_by structural draft => draft

/-- No object that the items keep or make has a key twice. -/
def DistinctItems : List Draft → Prop
  | [] => True
  | item :: rest => Distinct item ∧ DistinctItems rest
termination_by structural items => items

/-- No object that the fields keep or make has a key twice. -/
def DistinctFields : List (String × Draft) → Prop
  | [] => True
  | (_, value) :: rest => Distinct value ∧ DistinctFields rest
termination_by structural fields => fields

end

theorem distinctItems_iff {items : List Draft} :
    DistinctItems items ↔ ∀ item ∈ items, item.Distinct := by
  induction items with
  | nil => simp [DistinctItems]
  | cons item rest ih => rw [DistinctItems, List.forall_mem_cons, ih]

theorem distinctFields_iff {fields : List (String × Draft)} :
    DistinctFields fields ↔ ∀ field ∈ fields, field.2.Distinct := by
  induction fields with
  | nil => simp [DistinctFields]
  | cons field rest ih => rw [DistinctFields, List.forall_mem_cons, ih]

end Draft

namespace Build

theorem rises_draft (d : Draft) : Rises (draft d) := by
  intro label value after h
  rw [run_draft, Except.ok.injEq] at h
  have hle := d.le_build label
  rwa [h] at hle

theorem rises_arr (items : List Node) : Rises (arr items) :=
  rises_bind rises_fresh fun _ => rises_pure _

theorem rises_obj (fields : Table Node) : Rises (obj fields) :=
  rises_bind rises_fresh fun _ => rises_pure _

end Build

end Reducer
