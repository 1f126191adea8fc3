/-
A reduction as a walk.

Reducing an action builds the view and then walks the state along the trie of the
action's type; without a trie nothing happens.  `Starts` names what a walk begins
with, the pass and the outermost frame, and `reduce_cases` says that these are the
only two things a reduction can be.  What is known of walks is brought to reductions
through this.
-/
import Reducer.Proofs.Walk.Frames
import Reducer.Registry.Register

namespace Reducer

open Build

namespace Redirects

/-- Building the view never fails, and uses up one label at most. -/
theorem view_run (redirects : Option Redirects) (action : Action) (root : Node) (label : Label) :
    ∃ built after, (view redirects action root).run label = .ok (built, after) ∧
      label ≤ after ∧ after ≤ label + 1 := by
  unfold view
  split
  · exact ⟨_, _, rfl, Nat.le_succ _, Nat.le_refl _⟩
  · exact ⟨_, _, rfl, Nat.le_refl _, Nat.le_succ _⟩

end Redirects

namespace Registry

/-- The walk of a reduction is made in this pass, and begins with this frame. -/
inductive Starts (registry : Registry) (state : Node) (action : Action) (label : Label) :
    Pass → Frame Effect → Prop
  | mk {trie view start} (htrie : registry.trie? action.type = some trie)
      (hview : (Redirects.view (registry.redirects? action.type) action state).run label =
        .ok (view, start)) :
      Starts registry state action label ⟨action, state, view⟩ ⟨[], trie.branches, state, start⟩

/-- A reduction leaves the state alone, or is one walk. -/
theorem reduce_cases (registry : Registry) (state : Node) (action : Action) (label : Label) :
    (registry.trie? action.type = none ∧
      (registry.reduce state action).run label = .ok (state, label)) ∨
    ∃ pass start, registry.Starts state action label pass start ∧
      (registry.reduce state action).run label = pass.walker.rebuildFrame start := by
  unfold reduce
  cases htrie : registry.trie? action.type with
  | none => exact Or.inl ⟨rfl, rfl⟩
  | some trie =>
      obtain ⟨view, start, hview, -, -⟩ :=
        Redirects.view_run (registry.redirects? action.type) action state label
      refine Or.inr ⟨⟨action, state, view⟩, ⟨[], trie.branches, state, start⟩,
        .mk htrie hview, ?_⟩
      rw [run_bind, hview]
      show ((Pass.mk action state view).walker.walk trie state).run start = _
      rw [Walker.walk_eq]
      rfl

/-- There is only one way for the walk of a reduction to begin. -/
theorem Starts.unique {registry : Registry} {state : Node} {action : Action} {label : Label}
    {pass other : Pass} {start begin : Frame Effect}
    (h : registry.Starts state action label pass start)
    (hother : registry.Starts state action label other begin) : other = pass ∧ begin = start := by
  obtain ⟨htrie, hview⟩ := h
  obtain ⟨htrie', hview'⟩ := hother
  rw [htrie] at htrie'
  cases htrie'
  rw [hview] at hview'
  cases hview'
  exact ⟨rfl, rfl⟩

/-- The walk of a reduction begins at the root. -/
theorem Starts.frame {registry : Registry} {state : Node} {action : Action} {label : Label}
    {pass : Pass} {start : Frame Effect} (h : registry.Starts state action label pass start) :
    start.path = [] ∧ start.node = state ∧ label ≤ start.label := by
  obtain ⟨_, hview⟩ := h
  obtain ⟨view, after, hrun, hle, -⟩ :=
    Redirects.view_run (registry.redirects? action.type) action state label
  rw [hrun] at hview
  cases hview
  exact ⟨rfl, rfl, hle⟩

/-- **A reduction that succeeds left the state alone, or its walk succeeded.** -/
theorem reduce_ok {registry : Registry} {state next : Node} {action : Action}
    {label after : Label} (h : (registry.reduce state action).run label = .ok (next, after)) :
    ((∀ pass start, ¬registry.Starts state action label pass start) ∧ next = state) ∨
    ∃ pass start, registry.Starts state action label pass start ∧
      pass.walker.rebuildFrame start = .ok (next, after) := by
  rcases registry.reduce_cases state action label with ⟨htrie, hrun⟩ | ⟨pass, start, hstart, hrun⟩
  · rw [hrun] at h
    cases h
    refine Or.inl ⟨?_, rfl⟩
    rintro pass start ⟨hsome, -⟩
    rw [htrie] at hsome
    cases hsome
  · exact Or.inr ⟨pass, start, hstart, by rw [← hrun, h]⟩

/-- The registry of one ungrouped reaction, which is enough to see a reduction at work. -/
def ofEffects (type : String) (effects : List SliceEffect) : Registry :=
  Registry.empty.record [[(type, .reaction ⟨some fun _ => .null, effects⟩)]] none none

end Registry

end Reducer
