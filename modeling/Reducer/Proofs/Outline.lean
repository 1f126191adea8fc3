/-
Reductions and the outlines of their walks.

Where callbacks and predicates read contents, a reduction does what the outline of its walk
does, which has no labels: it fails if the outline fails, and otherwise it ends in a tree of
the content that the outline ends in.  The outline may be that of another state, as long as
its view has the same content and the steps of the trie lead alike by either, so reductions
that go different ways can be compared with one outline.
-/
import Reducer.Proofs.Reduction
import Reducer.Proofs.Walk.Content

namespace Reducer

open Build

/-- Two things related to a third are related. -/
theorem rel_of_common {α β γ : Type} {P : α → β → Prop} {Q : α → γ → Prop} {T : β → γ → Prop}
    {x : Option α} {y : Option β} {z : Option γ} (hleft : Option.Rel P x y)
    (hright : Option.Rel Q x z) (h : ∀ {a b c}, P a b → Q a c → T b c) : Option.Rel T y z := by
  cases hleft with
  | none => cases hright; exact .none
  | some hab =>
      cases hright with
      | some hac => exact .some (h hab hac)

/-! ### Registries that read contents -/

/-- The step is a name, or a predicate that reads contents. -/
def Step.ReadsContent : Step → Prop
  | literal _ => True
  | predicate test _ => test.ReadsContent

/-- Every predicate on the way reads contents, and so does every effect. -/
abbrev Trie.ReadsContent (trie : Trie Effect) : Prop :=
  trie.Every Step.ReadsContent Effect.ReadsContent

/-- All that is called while an action is reduced reads contents. -/
structure Registry.ReadsContent (registry : Registry) : Prop where
  tries : ∀ type trie, registry.trie? type = some trie → trie.ReadsContent
  redirects : ∀ type redirects, registry.redirects? type = some redirects →
    Redirects.ReadsContent redirects

namespace Pass

variable {pass other : Pass}

/-- A step that sees the view leads alike by views of one content. -/
theorem leadsAlike_of_reads (h : pass.Resembles other) {step : Step} (hreads : step.ReadsContent)
    (hroot : ∀ test, step = .predicate test true → pass.root.Akin other.root) :
    pass.LeadsAlike other step := by
  intro value made seg hvalue
  cases step with
  | literal name => rfl
  | predicate test unmapped =>
      rw [leads, leads, h.action]
      cases unmapped with
      | true => exact hreads _ seg (hroot test rfl).toJson_eq hvalue.toJson_eq
      | false => exact hreads _ seg h.view.toJson_eq hvalue.toJson_eq

end Pass

namespace Registry

variable {registry : Registry} {action : Action} {state made : Node}

/-- **A reduction is compared with the outline of its walk.** -/
theorem rel_reduce_outline {trie : Trie Effect} (htrie : registry.trie? action.type = some trie)
    {plan : Pass} (haction : plan.action = action) (hstate : state.Akin made) (label : Label)
    (hplan : ∀ view next, (Redirects.view (registry.redirects? action.type) action made).run label =
      .ok (view, next) → plan.view.Akin view ∧
        trie.Every (plan.LeadsAlike ⟨action, made, view⟩) Effect.ReadsContent) :
    Option.Rel (fun one run => one.Akin run.1) (plan.outline.walk trie state)
      (result (registry.reduce made action) label) := by
  obtain ⟨view, next, hview, -, -⟩ :=
    Redirects.view_run (registry.redirects? action.type) action made label
  obtain ⟨hakin, hreads⟩ := hplan view next hview
  have hrun : result (registry.reduce made action) label =
      result ((Pass.mk action made view).walker.walk trie made) next := by
    rw [reduce, htrie, result_bind, result_eq_some.mpr hview]
    rfl
  rw [hrun]
  have hsame : plan.Resembles ⟨action, made, view⟩ := ⟨haction, hakin⟩
  exact Pass.outline_walk hsame hreads next hstate

end Registry

end Reducer
