/-
Changes that no report mentions.

A report of changes lists the places below two roots that hold different nodes.  If it is
empty, all that the two have below is the same, and so they are equal, provided the report went
down at all: it does not where two arrays differ in length, and it never lists the root itself.
So it has to be known what an action can do to a root.  It keeps the kind of the root, it
leaves a scalar alone, and of an array it can only take items away.  Hence the one change that
goes unreported is an array at the root that has lost items.

Nodes are the same by their labels, so that equal labels mean equal nodes is what everything
rests on.  The heap says which container a label belongs to, for all labels that were drawn
before the action; what is made later has labels of its own.
-/
import Reducer.Proofs.Batch
import Reducer.Proofs.Patch
import Reducer.Proofs.Sharing
import Reducer.Proofs.Walk.Keeping

namespace Reducer

open Build

namespace Node

/-! ### One container for a label -/

mutual

/-- Every container in the tree whose label lies below `fixed` is the one that the heap has. -/
def Of (heap : Label → Node) (fixed : Label) : Node → Prop
  | arr label items => (label < fixed → heap label = .arr label items) ∧ OfItems heap fixed items
  | obj label fields =>
      (label < fixed → heap label = .obj label fields) ∧ OfFields heap fixed fields
  | _ => True
termination_by structural node => node

/-- The same of items. -/
def OfItems (heap : Label → Node) (fixed : Label) : List Node → Prop
  | [] => True
  | item :: rest => Of heap fixed item ∧ OfItems heap fixed rest
termination_by structural items => items

/-- The same of the values of fields. -/
def OfFields (heap : Label → Node) (fixed : Label) : List (String × Node) → Prop
  | [] => True
  | (_, value) :: rest => Of heap fixed value ∧ OfFields heap fixed rest
termination_by structural fields => fields

end

variable {heap : Label → Node} {fixed : Label}

theorem ofItems_iff {items : List Node} :
    OfItems heap fixed items ↔ ∀ item ∈ items, Of heap fixed item := by
  induction items with
  | nil => simp [OfItems]
  | cons item rest ih => rw [OfItems, List.forall_mem_cons, ih]

theorem ofFields_iff {fields : List (String × Node)} :
    OfFields heap fixed fields ↔ ∀ field ∈ fields, Of heap fixed field.2 := by
  induction fields with
  | nil => simp [OfFields]
  | cons field rest ih => rw [OfFields, List.forall_mem_cons, ih]

theorem inherited_of : Inherited (Of heap fixed) := by
  intro node h child hchild
  cases node with
  | arr label items => exact ofItems_iff.mp h.2 child hchild
  | obj label fields =>
      obtain ⟨field, hfield, heq⟩ := List.mem_map.mp hchild
      rw [← heq]
      exact ofFields_iff.mp h.2 field hfield
  | _ => cases hchild

/-- The keys of the tree are distinct, and its old containers are those of the heap. -/
def Known (heap : Label → Node) (fixed : Label) (node : Node) : Prop :=
  node.Distinct ∧ node.Of heap fixed

/-- No container that is made later is one of the heap, so trees stay known. -/
theorem kept_known : Kept fixed (Known heap fixed) where
  inherited node h child hchild :=
    ⟨inherited_distinct node h.1 child hchild, inherited_of node h.2 child hchild⟩
  distinct _ h := h.1
  scalar node h := by
    cases node with
    | arr label items => cases h
    | obj label fields => cases h
    | _ => exact ⟨trivial, trivial⟩
  arr label items hle h := by
    refine ⟨distinct_arr.mpr fun item hitem => (h item hitem).1, fun hlt => ?_, ?_⟩
    · exact absurd hlt (Nat.not_lt.mpr hle)
    · exact ofItems_iff.mpr fun item hitem => (h item hitem).2
  obj label fields hle hkeys h := by
    refine ⟨distinct_obj.mpr ⟨hkeys, fun field hfield => (h field hfield).1⟩, fun hlt => ?_, ?_⟩
    · exact absurd hlt (Nat.not_lt.mpr hle)
    · exact ofFields_iff.mpr fun field hfield => (h field hfield).2

/-- A container that is the same as an old one is that one. -/
theorem eq_of_same {node other : Node} (hnode : node.Of heap fixed) (hother : other.Of heap fixed)
    (hbefore : node.Before fixed) (hcontainer : node.isContainer = true)
    (hsame : node.same other = true) : node = other := by
  cases node with
  | arr label items =>
      cases other with
      | arr made others =>
          have hlabel := eq_of_beq hsame
          subst hlabel
          have hlt := (before_arr.mp hbefore).1
          exact (hnode.1 hlt).symm.trans (hother.1 hlt)
      | _ => cases hsame
  | obj label fields =>
      cases other with
      | obj made others =>
          have hlabel := eq_of_beq hsame
          subst hlabel
          have hlt := (before_obj.mp hbefore).1
          exact (hnode.1 hlt).symm.trans (hother.1 hlt)
      | _ => cases hsame
  | _ => cases hcontainer

theorem coherent_of_known {old new : Node} (hold : old.Known heap fixed)
    (hbefore : old.Before fixed) (hnew : new.Known heap fixed) : Coherent old new := by
  intro place before after hat hother hcontainer hsame
  have hone := inherited_of.at? hold.2 hat
  have htwo := inherited_of.at? hnew.2 hother
  have hdrawn := (inherited_before fixed).at? hbefore hat
  rw [eq_of_same hone htwo hdrawn hcontainer hsame]

/-! ### An empty report -/

/-- **Two trees whose report is empty are equal, if the report goes down from their roots.** -/
theorem eqv_of_changes_eq_nil {old new : Node} (hold : old.Known heap fixed)
    (hbefore : old.Before fixed) (hnew : new.Known heap fixed)
    (hroots : Comparable old new ∨ old.same new = true) (h : old.changes new = []) :
    old.eqv new = true := by
  have hcoherent := coherent_of_known hold hbefore hnew
  by_cases hsame : old.same new = true
  · exact eqv_of_same hold.1 hnew.1 hsame fun hcontainer =>
      hcoherent [] old new rfl rfl hcontainer hsame
  · have hcomparable := hroots.resolve_right hsame
    rw [changes, if_neg hsame] at h
    obtain ⟨made, hmade, -, heqv⟩ := patches hcomparable hcoherent hold.1 hnew.1
    -- With nothing in the report, patching stores nothing.
    rw [h] at hmade
    cases hmade
    exact heqv

/-! ### What becomes of a root -/

/-- The kind of the root stays, a scalar stays as it is, and an array gets no longer. -/
structure Narrows (old new : Node) : Prop where
  kind : new.kind = old.kind
  scalar : old.isContainer = false → new = old
  size : old.kind = .array → new.size ≤ old.size

theorem Narrows.refl (node : Node) : node.Narrows node :=
  ⟨rfl, fun _ => rfl, fun _ => Nat.le_refl _⟩

theorem Narrows.trans {old between new : Node} (h : old.Narrows between)
    (hnext : between.Narrows new) : old.Narrows new where
  kind := hnext.kind.trans h.kind
  scalar hscalar := by
    have hsame := h.scalar hscalar
    subst hsame
    exact hnext.scalar hscalar
  size harray := Nat.le_trans (hnext.size (h.kind.trans harray)) (h.size harray)

/-- What an array, or anything else, is refilled with is no more than it had. -/
theorem narrows_refill (node : Node) (label : Label) {outcomes : List (Option Node)}
    (hlength : node.slots.length = outcomes.length) (hnode : node.isContainer = true) :
    node.Narrows (node.refill label outcomes) where
  kind := kind_refill node label outcomes
  scalar hscalar := absurd hnode (by simp [hscalar])
  size harray := by
    cases node with
    | arr old items =>
        have hitems : items.length = outcomes.length := by
          rw [← hlength, slots, List.length_map, List.length_zipIdx]
        show (Walker.compact outcomes).length ≤ items.length
        rw [Walker.compact_eq, List.length_map, hitems]
        exact List.length_filter_le _ _
    | _ => cases harray

/-- Roots that narrow can be compared, unless an array has lost items. -/
theorem Narrows.comparable_or {old new : Node} (h : old.Narrows new) :
    (Comparable old new ∨ old.same new = true) ∨
      old.kind = .array ∧ new.kind = .array ∧ new.size < old.size := by
  obtain ⟨hkind, hscalar, hsize⟩ := h
  cases old with
  | arr label items =>
      cases new with
      | arr made others =>
          have hle : others.length ≤ items.length := hsize rfl
          by_cases hlength : items.length = others.length
          · exact Or.inl (Or.inl (comparable_iff.mpr (Or.inr ⟨rfl, rfl, hlength⟩)))
          · refine Or.inr ⟨rfl, rfl, ?_⟩
            show others.length < items.length
            omega
      | _ => cases hkind
  | obj label fields =>
      cases new with
      | obj made others => exact Or.inl (Or.inl (comparable_iff.mpr (Or.inl ⟨rfl, rfl⟩)))
      | _ => cases hkind
  | _ =>
      rw [hscalar rfl]
      exact Or.inl (Or.inr (same_refl _))

end Node

namespace Registry

variable {registry : Registry} {label after : Label} {state next : Node}

/-- **Reducing an action narrows the state.** -/
theorem narrows_reduce {action : Action}
    (h : (registry.reduce state action).run label = .ok (next, after)) : state.Narrows next := by
  rcases reduce_ok h with ⟨-, heq⟩ | ⟨pass, start, hstart, hrun⟩
  · rw [heq]
    exact Node.Narrows.refl state
  · obtain ⟨-, hnode, -⟩ := hstart.frame
    subst hnode
    cases hcontainer : start.node.isContainer with
    | false =>
        rw [Walker.rebuildFrame_of_not_isContainer hcontainer] at hrun
        cases hrun
        exact Node.Narrows.refl _
    | true =>
        obtain ⟨outcomes, between, new, hvisits, -, heq⟩ :=
          Walker.rebuildFrame_ok hcontainer hrun
        rw [heq]
        exact Node.narrows_refill _ _ (Walker.forall₂_visitedAt hvisits).length_eq hcontainer

/-- Reducing several actions narrows it as far as each of them does. -/
theorem narrows_reduceAll {actions : List Action}
    (h : (registry.reduceAll state actions).run label = .ok (next, after)) :
    state.Narrows next := by
  induction actions generalizing state label with
  | nil =>
      cases h
      exact Node.Narrows.refl _
  | cons action rest ih =>
      obtain ⟨made, between, hmade, hrest⟩ := run_bind_ok.mp h
      exact (narrows_reduce hmade).trans (ih hrest)

end Registry

/-! ### Stores -/

namespace Store

variable {store next : Store} {applied : Applied} {label after : Label} {heap : Label → Node}

/-- What is reported of a batch, one without actions included. -/
theorem changes_of_applyBatch {actions : List Action}
    (h : (store.applyBatch actions).run label = .ok ((next, applied), after)) :
    applied.changes = store.state.changes next.state := by
  rw [applyBatch_eq] at h
  obtain ⟨each, -, heq⟩ := run_map_ok.mp h
  cases heq
  rfl

/--
**Of all that an action or a batch can do to a state, only the loss of items of an array at the
root goes unreported.**  The labels of the state are drawn, one for each container, and callbacks
that are handed containers of the heap, or new ones, hand back no others.
-/
theorem unreported_of_no_changes (store : Store) (label : Label) (heap : Label → Node)
    (hstate : store.state.Known heap label) (hbefore : store.state.Before label)
    (hkeep : store.registry.Keep (Node.Known heap label)) :
    (∀ action next applied after,
      (store.apply action).run label = .ok ((next, applied), after) → applied.changes = [] →
      store.state.eqv next.state = true ∨
        store.state.kind = .array ∧ next.state.kind = .array ∧
          next.state.size < store.state.size) ∧
    ∀ actions next applied after,
      (store.applyBatch actions).run label = .ok ((next, applied), after) → applied.changes = [] →
      store.state.eqv next.state = true ∨
        store.state.kind = .array ∧ next.state.kind = .array ∧
          next.state.size < store.state.size := by
  have hbatch : ∀ actions next applied after,
      (store.applyBatch actions).run label = .ok ((next, applied), after) → applied.changes = [] →
      store.state.eqv next.state = true ∨
        store.state.kind = .array ∧ next.state.kind = .array ∧
          next.state.size < store.state.size := by
    intro actions next applied after h hchanges
    obtain ⟨hreduce, -⟩ := Ledger.applyBatch_ok h
    rw [changes_of_applyBatch h] at hchanges
    -- What is known of the state before is known of the state after, the labels drawn meanwhile
    -- being none of the heap's.
    have hnext := Registry.kept_reduceAll Node.kept_known hkeep hstate (Nat.le_refl label) hreduce
    exact (Registry.narrows_reduceAll hreduce).comparable_or.imp_left fun hroots =>
      Node.eqv_of_changes_eq_nil hstate hbefore hnext hroots hchanges
  refine ⟨?_, hbatch⟩
  intro action next applied after h hchanges
  rw [← applyBatch_singleton] at h
  exact hbatch [action] next applied after h hchanges

/-! ### Two stores -/

/-- One reaction, with one effect along one part. -/
def reactTo (type : String) (part : Part) (effect : Effect) : List Registry.Command :=
  [.register [[(type, .reaction ⟨some fun _ => .null, [⟨[part], some effect⟩]⟩)]] none none]

/-- A store over an object, where what is at `a` is put back there. -/
def touching : Store :=
  ofState (Registry.after (reactTo "touch" (.key "a") (.set fun _ _ value => .keep value)))
    (.obj 1 [("a", .arr 0 [])])

/-- The action that does it. -/
def touch : Action :=
  ⟨"touch", .null⟩

/-- The containers of that store. -/
def touchingHeap : Label → Node
  | 0 => .arr 0 []
  | _ => touching.state

theorem known_touching : touching.state.Known touchingHeap 2 := by
  refine ⟨Node.distinct_obj.mpr ⟨by simp [Table.Distinct, Table.keys], ?_⟩, ?_⟩
  · exact List.forall_mem_singleton.mpr (Node.distinct_arr.mpr (List.forall_mem_nil _))
  · exact ⟨fun _ => rfl, ⟨fun _ => rfl, trivial⟩, trivial⟩

theorem before_touching : touching.state.Before 2 := by
  refine Node.before_obj.mpr ⟨Nat.lt_succ_self 1, List.forall_mem_singleton.mpr ?_⟩
  exact Node.before_arr.mpr ⟨Nat.succ_pos 1, List.forall_mem_nil _⟩

theorem keep_touching (P : Node → Prop) : touching.registry.Keep P := by
  refine Registry.keep_after fun type placed hplaced => ?_
  by_cases htype : "touch" = type
  · subst htype
    have heq := List.mem_singleton.mp hplaced
    rw [heq]
    exact fun _ _ _ _ hvalue => hvalue
  · -- Nothing else was declared for the type, or for any other.
    have hnone : placed ∈ (if "touch" = type then Registry.place none
        [⟨[.key "a"], some (.set fun _ _ value => .keep value)⟩] else []) ++ [] ++ [] := hplaced
    rw [if_neg htype] at hnone
    cases hnone

/-- Putting back what is there makes a new root, once or twice, and there is no more to report. -/
theorem unreported_of_no_changes_touching :
    (∃ next applied after, (touching.apply touch).run 2 = .ok ((next, applied), after) ∧
      applied.changes = [] ∧ touching.state.same next.state = false ∧
      (touching.state.eqv next.state = true ∨ touching.state.kind = .array ∧
        next.state.kind = .array ∧ next.state.size < touching.state.size)) ∧
    ∃ next applied after,
      (touching.applyBatch [touch, touch]).run 2 = .ok ((next, applied), after) ∧
      applied.changes = [] ∧ touching.state.same next.state = false ∧
      (touching.state.eqv next.state = true ∨ touching.state.kind = .array ∧
        next.state.kind = .array ∧ next.state.size < touching.state.size) := by
  obtain ⟨hone, hmany⟩ := unreported_of_no_changes touching 2 touchingHeap known_touching
    before_touching (keep_touching _)
  exact ⟨⟨_, ⟨1, []⟩, _, rfl, rfl, rfl, hone touch _ ⟨1, []⟩ _ rfl rfl⟩,
    ⟨_, ⟨2, []⟩, _, rfl, rfl, rfl, hmany [touch, touch] _ ⟨2, []⟩ _ rfl rfl⟩⟩

/-- A store over an array of two numbers, and a reaction that takes the first away. -/
def dropping : Store :=
  ofState (Registry.after (reactTo "drop" (.index 0) .delete))
    (.arr 0 [.num (.int 1), .num (.int 2)])

/-- An array at the root can lose an item with nothing to report. -/
theorem unequal_of_no_changes :
    ∃ next applied after, (dropping.apply ⟨"drop", .null⟩).run 1 = .ok ((next, applied), after) ∧
      applied.changes = [] ∧ next.state = .arr 1 [.num (.int 2)] ∧
      dropping.state.eqv next.state = false :=
  ⟨_, _, _, rfl, rfl, rfl, rfl⟩

end Store

end Reducer
