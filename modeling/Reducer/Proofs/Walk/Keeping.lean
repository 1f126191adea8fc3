/-
What holds of every node of a walk.

A walk changes a tree in two ways only: it acts on slots, and it makes a new container of what
became of the slots of an old one.  So a property that acting keeps, and that new containers
have, holds of the node of every frame and of what the walk makes in the end.

A frame carries three things for that: its node has the property, its branches hold only
values that keep it, and its label is one from which on containers count as new.  The first
induction goes from frame to frame inward, the second over the height of the branches, which
sinks at every descent.
-/
import Reducer.Proofs.Keeping
import Reducer.Proofs.Reduction
import Reducer.Proofs.Registration
import Reducer.Proofs.View
import Reducer.Proofs.Walk.Content
import Reducer.Proofs.Walk.Labels
import Reducer.Proofs.Walk.Relabel

namespace Reducer

open Build

namespace Node

variable {floor : Label} {P : Node → Prop}

theorem mem_of_mem_compact {slots : List (Option Node)} {item : Node}
    (h : item ∈ Walker.compact slots) : some item ∈ slots := by
  unfold Walker.compact at h
  dsimp only at h
  split at h
  · simpa using List.mem_of_mem_filter h
  · simpa using h

/-- A container is refilled with slots of the property under a new label. -/
theorem Kept.refill (h : Kept floor P) {node : Node} (hnode : P node) {label : Label}
    (hle : floor ≤ label) {outcomes : List (Option Node)}
    (houtcomes : List.Forall₂ (fun (_ : Seg × Node) outcome => InSlot P outcome) node.slots
      outcomes) : P (node.refill label outcomes) := by
  cases node with
  | arr old items =>
      refine h.arr _ _ hle fun item hitem => ?_
      obtain ⟨position, hposition⟩ := List.getElem?_of_mem (mem_of_mem_compact hitem)
      obtain ⟨_, _, hslot⟩ := Walker.getElem?_of_forall₂ houtcomes.flip hposition
      exact hslot item rfl
  | obj old fields =>
      have hkeys := (distinct_obj.mp (h.distinct _ hnode)).1
      have hsublist := keys_keepFields_sublist fields outcomes
      refine h.obj _ _ hle (hsublist.nodup hkeys) fun field hfield => ?_
      have hfields := List.forall₂_map_left_iff.mp houtcomes
      obtain ⟨_, -, hslot⟩ := mem_keepFields hfields hfield
      exact hslot field.2 rfl
  | _ => exact hnode

end Node

namespace Redirects

/-- The view of a tree that has the property has it too. -/
theorem kept_view {floor : Label} {P : Node → Prop} (hP : Node.Kept floor P) {action : Action}
    {root : Node} (hroot : P root) {redirects : Option Redirects} {built : Node}
    {label after : Label} (hle : floor ≤ label)
    (h : (view redirects action root).run label = .ok (built, after)) :
    P built ∧ floor ≤ after := by
  have hdistinct := distinct_view (hP.distinct _ hroot) h
  obtain ⟨_, _, hview, hrises, -⟩ := view_run redirects action root label
  rw [hview] at h
  cases h
  refine ⟨?_, Nat.le_trans hle hrises⟩
  unfold view at hview
  split at hview
  · rename_i redirects old fields
    cases hview
    refine hP.obj _ _ hle (Node.distinct_obj.mp hdistinct).1 fun field hfield => ?_
    obtain ⟨held, hheld, heq⟩ := List.mem_map.mp hfield
    rw [← heq]
    refine inherited_shown hP.inherited (hP.scalar .null rfl) hroot redirects held.1 ?_
    exact hP.inherited _ hroot _ (List.mem_map.mpr ⟨held, hheld, rfl⟩)
  · cases hview
    exact hroot

end Redirects

/-- The node of the frame has the property, and what its branches hold are values of a kind. -/
structure Frame.Kept {α : Type} (floor : Label) (Q : α → Prop) (P : Node → Prop)
    (frame : Frame α) : Prop where
  node : P frame.node
  branches : Trie.EveryBranch (fun _ => True) Q frame.branches
  label : floor ≤ frame.label

namespace Walker

variable {α : Type}

/-- Acting with values of the kind keeps the property, where containers made count as new. -/
structure Keeps (walker : Walker Build α) (floor : Label) (Q : α → Prop) (P : Node → Prop) :
    Prop where
  fresh : walker.Fresh
  act : ∀ path value current label outcome after, Q value → Node.InSlot P current →
    floor ≤ label → (walker.act path value current).run label = .ok (outcome, after) →
    Node.InSlot P outcome

variable {walker : Walker Build α} {floor : Label} {Q : α → Prop} {P : Node → Prop}
  {start frame deeper : Frame α}

/-- It is the same for values that only stand for others. -/
theorem Keeps.comap {β : Type} (h : walker.Keeps floor Q P) (f : β → α) :
    (walker.comap f).Keeps floor (fun value => Q (f value)) P where
  fresh := ⟨fun path value current => h.fresh.act path (f value) current, h.fresh.label⟩
  act path value := h.act path (f value)

/-! ### Slots -/

theorem Keeps.actAll (h : walker.Keeps floor Q P) {path : Path} {values : List α}
    (hvalues : ∀ value ∈ values, Q value) :
    ∀ {current outcome : Option Node} {label after : Label}, Node.InSlot P current →
      floor ≤ label → (walker.actAll path values current).run label = .ok (outcome, after) →
      Node.InSlot P outcome := by
  induction values with
  | nil =>
      intro current outcome label after hcurrent _ hrun
      cases hrun
      exact hcurrent
  | cons value rest ih =>
      intro current outcome label after hcurrent hle hrun
      obtain ⟨hfirst, hrest⟩ := List.forall_mem_cons.mp hvalues
      rw [Walker.actAll] at hrun
      obtain ⟨next, between, hact, hrun⟩ := run_bind_ok.mp hrun
      have hnext := h.act _ _ _ _ _ _ hfirst hcurrent hle hact
      exact ih hrest hnext (Nat.le_trans hle (h.fresh.act _ _ _ _ _ _ hact)) hrun

theorem Keeps.settle (h : walker.Keeps floor Q P) {path : Path} {seg : Seg} :
    ∀ {branches below : List (Step × Trie α)} {current outcome : Option Node}
      {label after : Label}, Trie.EveryBranch (fun _ => True) Q branches →
      Node.InSlot P current → floor ≤ label →
      (walker.settle path seg branches current).run label = .ok ((outcome, below), after) →
      Node.InSlot P outcome := by
  intro branches
  induction branches with
  | nil =>
      intro below current outcome label after _ hcurrent _ hrun
      cases hrun
      exact hcurrent
  | cons branch rest ih =>
      intro below current outcome label after hbranches hcurrent hle hrun
      obtain ⟨step, trie⟩ := branch
      obtain ⟨⟨-, hfirst⟩, hrest⟩ := List.forall_mem_cons.mp hbranches
      rw [Walker.settle] at hrun
      split at hrun
      · obtain ⟨next, between, hact, hrun⟩ := run_bind_ok.mp hrun
        obtain ⟨⟨last, others⟩, ending, hlater, hrun⟩ := run_bind_ok.mp hrun
        cases hrun
        have hnext := h.actAll (Trie.every_iff.mp hfirst).1 hcurrent hle hact
        exact ih hrest hnext (Nat.le_trans hle (h.fresh.rises_actAll _ _ _ _ _ _ hact)) hlater
      · exact ih hrest hcurrent hle hrun

/-! ### Frames -/

theorem Keeps.visited (h : walker.Keeps floor Q P) (hP : Node.Inherited P)
    (hframe : frame.Kept floor Q P) {seg : Seg} {child : Node} {begin after : Label}
    (hvisit : walker.Visits frame seg child begin) {current : Option Node}
    {below : List (Step × Trie α)}
    (hsettle : (walker.settle (frame.path ++ [seg]) seg frame.branches (some child)).run begin =
      .ok ((current, below), after)) :
    Node.InSlot P current ∧ Trie.EveryBranch (fun _ => True) Q below ∧ floor ≤ after := by
  have hchild : Node.InSlot P (some child) := by
    intro value hvalue
    cases hvalue
    exact hP.of_mem_slots hframe.node hvisit.mem_slots
  have hbegin := Nat.le_trans hframe.label (h.fresh.le_of_visits hvisit)
  exact ⟨h.settle hframe.branches hchild hbegin hsettle, everyBranch_below hframe.branches hsettle,
    Nat.le_trans hbegin (h.fresh.rises_settle _ _ _ _ _ _ _ hsettle)⟩

theorem Keeps.descends (h : walker.Keeps floor Q P) (hP : Node.Inherited P)
    (hframe : frame.Kept floor Q P) (hdescends : walker.Descends frame deeper) :
    deeper.Kept floor Q P := by
  obtain ⟨hvisit, hsettle, -⟩ := hdescends
  obtain ⟨hcurrent, hbelow, hlabel⟩ := h.visited hP hframe hvisit hsettle
  exact ⟨hcurrent _ rfl, hbelow, hlabel⟩

/-- **Every node that a walk rebuilds has the property.** -/
theorem Keeps.enters (h : walker.Keeps floor Q P) (hP : Node.Inherited P)
    (hstart : start.Kept floor Q P) (henters : walker.Enters start frame) :
    frame.Kept floor Q P := by
  induction henters with
  | refl => exact hstart
  | tail _ hlast ih => exact h.descends hP ih hlast

/-- **What a walk makes has the property.** -/
theorem Keeps.rebuildFrame (h : walker.Keeps floor Q P) (hP : Node.Kept floor P)
    (hframe : frame.Kept floor Q P) {rebuilt : Node} {after : Label}
    (hrun : walker.rebuildFrame frame = .ok (rebuilt, after)) : P rebuilt := by
  induction hheight : Trie.branchesHeight frame.branches using Nat.strongRecOn
    generalizing frame rebuilt after with
  | ind height ih =>
      cases hnode : frame.node.isContainer with
      | false =>
          rw [rebuildFrame_of_not_isContainer hnode] at hrun
          cases hrun
          exact hframe.node
      | true =>
          obtain ⟨outcomes, between, new, hvisits, hlabel, hrebuilt⟩ := rebuildFrame_ok hnode hrun
          have hbetween := Nat.le_trans hframe.label (h.fresh.rises_visits frame _ _ _ hvisits)
          have hnew : floor ≤ new := by
            rw [h.fresh.label, run_fresh] at hlabel
            cases hlabel
            exact hbetween
          rw [hrebuilt]
          refine hP.refill hframe.node hnew ((forall₂_visitedAt hvisits).imp ?_)
          intro ⟨seg, child⟩ outcome ⟨begin, ending, hvisit, hslot⟩
          obtain ⟨current, below, middle, hsettle, hrest⟩ := visitSlot_ok hslot
          obtain ⟨hcurrent, hbelow, hmiddle⟩ := h.visited hP.inherited hframe hvisit hsettle
          rcases hrest with ⟨-, heq, -⟩ | ⟨value, made, hvalue, hne, hdeeper, heq⟩
          · rw [heq]
            exact hcurrent
          · subst hvalue heq
            have hdescends : walker.Descends frame ⟨frame.path ++ [seg], below, value, middle⟩ :=
              .mk hvisit hsettle hne
            have hkept := h.descends hP.inherited hframe hdescends
            intro found hfound
            cases hfound
            exact ih _ (hheight ▸ hdescends.height_lt) hkept hdeeper rfl

end Walker

/-! ### Reductions -/

namespace Registry

/-- All effects of the registry keep the property. -/
def Keep (registry : Registry) (P : Node → Prop) : Prop :=
  ∀ type trie, registry.trie? type = some trie → trie.Every (fun _ => True) (Effect.Keeps P)

variable {registry : Registry} {floor : Label} {P : Node → Prop}

theorem keeps_walker {pass : Pass} (hP : Node.Kept floor P) (hview : P pass.view) :
    pass.walker.Keeps floor (Effect.Keeps P) P where
  fresh := pass.fresh_walker
  act _ _ _ _ _ _ heffect hcurrent hle hrun :=
    Effect.kept_run hP heffect hview hcurrent hle hrun

/-- The walk of a reduction begins with a frame that has the property. -/
theorem Starts.kept (hP : Node.Kept floor P) (hkeep : registry.Keep P) {state : Node}
    {action : Action} {label : Label} (hstate : P state) (hle : floor ≤ label) {pass : Pass}
    {start : Frame Effect} (h : registry.Starts state action label pass start) :
    P pass.view ∧ start.Kept floor (Effect.Keeps P) P := by
  obtain ⟨htrie, hview⟩ := h
  obtain ⟨hseen, hstart⟩ := Redirects.kept_view hP hstate hle hview
  exact ⟨hseen, hstate, (Trie.every_iff.mp (hkeep _ _ htrie)).2, hstart⟩

theorem rises_reduce (registry : Registry) (state : Node) (action : Action) :
    Rises (registry.reduce state action) := by
  intro label next after h
  rcases registry.reduce_cases state action label with ⟨-, hrun⟩ | ⟨pass, start, hstart, hrun⟩
  · rw [hrun] at h
    cases h
    exact Nat.le_refl _
  · obtain ⟨-, -, hle⟩ := hstart.frame
    rw [hrun] at h
    exact Nat.le_trans hle (pass.fresh_walker.rises_rebuild _ _ _ _ _ _ _ h)

/-- **Reducing an action keeps what all effects keep.** -/
theorem kept_reduce (hP : Node.Kept floor P) (hkeep : registry.Keep P) {state next : Node}
    {action : Action} {label after : Label} (hstate : P state) (hle : floor ≤ label)
    (h : (registry.reduce state action).run label = .ok (next, after)) : P next := by
  rcases reduce_ok h with ⟨-, heq⟩ | ⟨pass, start, hstart, hrun⟩
  · rw [heq]
    exact hstate
  · obtain ⟨hview, hframe⟩ := hstart.kept hP hkeep hstate hle
    exact (keeps_walker hP hview).rebuildFrame hP hframe hrun

/-- Reducing several actions keeps it too. -/
theorem kept_reduceAll (hP : Node.Kept floor P) (hkeep : registry.Keep P) {actions : List Action} :
    ∀ {state next : Node} {label after : Label}, P state → floor ≤ label →
      (registry.reduceAll state actions).run label = .ok (next, after) → P next := by
  induction actions with
  | nil =>
      intro state next label after hstate _ h
      cases h
      exact hstate
  | cons action rest ih =>
      intro state next label after hstate hle h
      obtain ⟨made, between, hmade, hrest⟩ := run_bind_ok.mp h
      have hlater := Nat.le_trans hle (registry.rises_reduce state action _ _ _ hmade)
      exact ih (kept_reduce hP hkeep hstate hle hmade) hlater hrest

/-- The effects of a registry keep what all effects that were accepted keep. -/
theorem keep_after {commands : List Command}
    (h : ∀ type, ∀ placed ∈ accepted commands type, placed.2.Keeps P) :
    (after commands).Keep P := by
  intro type trie htrie
  rw [trie?_after, merged] at htrie
  split at htrie
  · cases htrie
  · cases htrie
    refine Trie.every_insertAll (fun placed hplaced => ?_) Trie.every_empty
    exact ⟨fun _ _ => trivial, h type placed hplaced⟩

end Registry

end Reducer
