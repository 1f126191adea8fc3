/-
What a view is made of.

A view is a new object, but all it shows is taken from the state: the properties of the
root, and the nodes that slices lead to from there.  So a property that a tree hands
down to its children holds of everything a view shows, and the view has distinct keys
and labels drawn before when the state does.
-/
import Reducer.Proofs.Build
import Reducer.Proofs.Node
import Reducer.Redirects

namespace Reducer

open Build

variable {action : Action} {root : Node}

/-! ### What slices lead to -/

theorem Part.mem_children_of_firstChild? {holds : Node → Seg → Bool} {node child : Node}
    (h : firstChild? holds node = some child) : child ∈ node.children := by
  cases node with
  | arr label items =>
      obtain ⟨item, hitem, rfl⟩ := Option.map_eq_some_iff.mp h
      exact List.fst_mem_of_mem_zipIdx (List.mem_of_find?_eq_some hitem)
  | obj label fields =>
      obtain ⟨field, hfield, rfl⟩ := Option.map_eq_some_iff.mp h
      exact List.mem_map.mpr ⟨field, List.mem_of_find?_eq_some hfield, rfl⟩
  | _ => cases h

theorem Part.mem_children_of_resolve {part : Part} {node child : Node}
    (h : part.resolve action root node = some child) : child ∈ node.children := by
  cases part with
  | predicate test => exact mem_children_of_firstChild? h
  | _ => exact Node.mem_children_of_child? h

theorem Slice.inherited_resolveFrom {P : Node → Prop} (hP : Node.Inherited P) {slice : Slice} :
    ∀ {node value : Node}, P node → resolveFrom action root node slice = some value → P value := by
  induction slice with
  | nil =>
      intro node value h hvalue
      cases hvalue
      exact h
  | cons part rest ih =>
      intro node value h hvalue
      rw [resolveFrom, Option.bind_eq_some_iff] at hvalue
      obtain ⟨child, hchild, hvalue⟩ := hvalue
      exact ih (hP node h child (Part.mem_children_of_resolve hchild)) hvalue

namespace Redirects

theorem inherited_shown {P : Node → Prop} (hP : Node.Inherited P) (hnull : P .null) (hroot : P root)
    (redirects : Redirects) (name : String) {value : Node} (hvalue : P value) :
    P (redirects.shown action root name value) := by
  unfold shown
  split
  · rename_i slice _
    cases hfound : slice.resolve action root with
    | none => exact hnull
    | some found => exact Slice.inherited_resolveFrom hP hroot hfound
  · exact hvalue

/-! ### The view -/

variable {redirects : Option Redirects} {built : Node} {label after : Label}

theorem distinct_view (hroot : root.Distinct)
    (h : (view redirects action root).run label = .ok (built, after)) : built.Distinct := by
  unfold view at h
  split at h
  · rename_i redirects old fields
    cases h
    obtain ⟨hkeys, hvalues⟩ := Node.distinct_obj.mp hroot
    refine Node.distinct_obj.mpr ⟨?_, fun field hfield => ?_⟩
    · unfold Table.Distinct Table.keys at *
      rw [List.map_map]
      exact hkeys
    · obtain ⟨held, hheld, rfl⟩ := List.mem_map.mp hfield
      exact inherited_shown Node.inherited_distinct trivial hroot redirects _ (hvalues held hheld)
  · cases h
    exact hroot

theorem before_view (hroot : root.Before label)
    (h : (view redirects action root).run label = .ok (built, after)) : built.Before after := by
  unfold view at h
  split at h
  · rename_i redirects old fields
    cases h
    have hnull : Node.Before .null label := by
      intro other hother
      cases hother
    refine Node.before_obj.mpr ⟨Nat.lt_succ_self _, fun field hfield => ?_⟩
    obtain ⟨held, hheld, rfl⟩ := List.mem_map.mp hfield
    have hvalue : held.2.Before label := (Node.before_obj.mp hroot).2 held hheld
    have hshown : (redirects.shown action _ held.1 held.2).Before label :=
      inherited_shown (Node.inherited_before label) hnull hroot redirects held.1 hvalue
    exact hshown.mono (Nat.le_succ _)
  · cases h
    exact hroot

end Redirects

end Reducer
