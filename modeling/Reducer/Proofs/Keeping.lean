/-
Properties of trees that effects keep.

Some properties of trees are never lost while a tree is changed.  What is handed down to the
children of a tree, and holds of every new container around trees of which it holds, can only
be brought into danger by a callback, and a callback that is handed such trees need only keep
such trees in its draft.  `Node.Kept` says which properties are meant, `Draft.Lays` and
`Effect.Keeps` what is asked of callbacks, and `Effect.kept_run` that the effect then keeps the
property.

A label may be given from which on containers count as new, so that a property can say more
of the containers that were there before.
-/
import Reducer.Proofs.Effect
import Reducer.Proofs.Merge
import Reducer.Proofs.Node

namespace Reducer

open Build

namespace Node

/--
A property that a tree hands down, that leaves no object with a key twice, and that every
scalar has and every container made from the label `floor` on around trees that have it.
-/
structure Kept (floor : Label) (P : Node → Prop) : Prop where
  inherited : Inherited P
  distinct : ∀ node, P node → node.Distinct
  scalar : ∀ node, node.isContainer = false → P node
  arr : ∀ label items, floor ≤ label → (∀ item ∈ items, P item) → P (.arr label items)
  obj : ∀ label fields, floor ≤ label → Table.Distinct fields → (∀ field ∈ fields, P field.2) →
    P (.obj label fields)

/-- The value of a slot, if there is one, has the property. -/
def InSlot (P : Node → Prop) (current : Option Node) : Prop :=
  ∀ value, current = some value → P value

theorem kept_distinct : Kept 0 Distinct where
  inherited := inherited_distinct
  distinct _ h := h
  scalar node h := by
    cases node with
    | arr label items => cases h
    | obj label fields => cases h
    | _ => trivial
  arr _ _ _ h := distinct_arr.mpr h
  obj _ _ _ hkeys h := distinct_obj.mpr ⟨hkeys, h⟩

variable {floor : Label} {P : Node → Prop}

theorem Kept.getD (h : Kept floor P) {current : Option Node} (hcurrent : InSlot P current) :
    P (current.getD .null) := by
  cases current with
  | none => exact h.scalar .null rfl
  | some value => exact hcurrent value rfl

end Node

/-! ### Drafts -/

namespace Draft

mutual

/-- What the draft keeps has the property, and no object that it makes has a key twice. -/
def Lays (P : Node → Prop) : Draft → Prop
  | keep node => P node
  | arr items => LaysItems P items
  | obj fields => (fields.map (·.1)).Nodup ∧ LaysFields P fields
termination_by structural draft => draft

/-- The same of items. -/
def LaysItems (P : Node → Prop) : List Draft → Prop
  | [] => True
  | item :: rest => Lays P item ∧ LaysItems P rest
termination_by structural items => items

/-- The same of the values of fields. -/
def LaysFields (P : Node → Prop) : List (String × Draft) → Prop
  | [] => True
  | (_, value) :: rest => Lays P value ∧ LaysFields P rest
termination_by structural fields => fields

end

variable {floor : Label} {P : Node → Prop}

theorem laysItems_iff {items : List Draft} : LaysItems P items ↔ ∀ item ∈ items, item.Lays P := by
  induction items with
  | nil => simp [LaysItems]
  | cons item rest ih => rw [LaysItems, List.forall_mem_cons, ih]

theorem laysFields_iff {fields : List (String × Draft)} :
    LaysFields P fields ↔ ∀ field ∈ fields, field.2.Lays P := by
  induction fields with
  | nil => simp [LaysFields]
  | cons field rest ih => rw [LaysFields, List.forall_mem_cons, ih]

/-- A draft without a key twice keeps nodes without a key twice. -/
theorem Distinct.lays {draft : Draft} (h : draft.Distinct) : draft.Lays Node.Distinct := by
  induction draft using draftInduction with
  | keep node => exact h
  | arr items ih =>
      refine laysItems_iff.mpr fun item hitem => ih item hitem ?_
      exact distinctItems_iff.mp h item hitem
  | obj fields ih =>
      refine ⟨h.1, laysFields_iff.mpr fun field hfield => ih field hfield ?_⟩
      exact distinctFields_iff.mp h.2 field hfield

theorem keys_buildFields (fields : List (String × Draft)) :
    ∀ next, Table.keys (buildFields fields next).1 = fields.map (·.1) := by
  induction fields with
  | nil =>
      intro next
      rfl
  | cons field rest ih =>
      intro next
      exact congrArg (field.1 :: ·) (ih _)

theorem kept_buildItems {items : List Draft}
    (hitems : ∀ item ∈ items, item.Lays P → ∀ next, floor ≤ next → P (item.build next).1)
    (h : LaysItems P items) {next : Label} (hle : floor ≤ next) :
    ∀ item ∈ (buildItems items next).1, P item := by
  induction items generalizing next with
  | nil =>
      intro item hitem
      cases hitem
  | cons first rest ih =>
      obtain ⟨hfirst, hrest⟩ := List.forall_mem_cons.mp hitems
      have hnext := Nat.le_trans hle (le_build first next)
      exact List.forall_mem_cons.mpr ⟨hfirst h.1 next hle, ih hrest h.2 hnext⟩

theorem kept_buildFields {fields : List (String × Draft)}
    (hfields : ∀ field ∈ fields, field.2.Lays P → ∀ next, floor ≤ next → P (field.2.build next).1)
    (h : LaysFields P fields) {next : Label} (hle : floor ≤ next) :
    ∀ field ∈ (buildFields fields next).1, P field.2 := by
  induction fields generalizing next with
  | nil =>
      intro field hfield
      cases hfield
  | cons first rest ih =>
      obtain ⟨hfirst, hrest⟩ := List.forall_mem_cons.mp hfields
      have hnext := Nat.le_trans hle (le_build first.2 next)
      exact List.forall_mem_cons.mpr ⟨hfirst h.1 next hle, ih hrest h.2 hnext⟩

/-- What is built of a draft has the property, if what the draft keeps has it. -/
theorem kept_build (hP : Node.Kept floor P) {draft : Draft} (h : draft.Lays P) :
    ∀ next, floor ≤ next → P (draft.build next).1 := by
  induction draft using draftInduction with
  | keep node =>
      intro next _
      exact h
  | arr items ih =>
      intro next hle
      exact hP.arr _ _ hle (kept_buildItems ih h (Nat.le_succ_of_le hle))
  | obj fields ih =>
      intro next hle
      refine hP.obj _ _ hle ?_ (kept_buildFields ih h.2 (Nat.le_succ_of_le hle))
      unfold Table.Distinct
      rw [keys_buildFields]
      exact h.1

end Draft

/-! ### Effects -/

/-- Handed trees that have the property, the callback keeps no others in its draft. -/
def Callback.Keeps (P : Node → Prop) (callback : Callback) : Prop :=
  ∀ action view value, P view → P value → (callback action view value).Lays P

namespace Effect

/-- The effect's callback keeps the property. -/
def Keeps (P : Node → Prop) : Effect → Prop
  | set callback | append callback | assign callback => Callback.Keeps P callback
  | insert callback => Callback.Keeps P fun action view value => (callback action view value).2
  | delete => True

theorem mem_children_of_appendable? {node item : Node} {items : List Node}
    (h : appendable? node = some items) (hitem : item ∈ items) : item ∈ node.children := by
  cases node with
  | arr label held =>
      cases h
      exact hitem
  | null =>
      cases h
      cases hitem
  | _ => cases h

theorem mem_children_of_items? {node item : Node} {items : List Node}
    (h : node.items? = some items) (hitem : item ∈ items) : item ∈ node.children := by
  cases node with
  | arr label held =>
      cases h
      exact hitem
  | _ => cases h

variable {floor label after : Label} {P : Node → Prop}

/-- Fields that are assigned, or assigned to, are those of an object that has the property. -/
theorem kept_assignable? (hP : Node.Kept floor P) {node : Node} {fields : Table Node}
    (hnode : P node) (h : assignable? node = some fields) :
    Table.Distinct fields ∧ ∀ field ∈ fields, P field.2 := by
  cases node with
  | obj label held =>
      cases h
      refine ⟨(Node.distinct_obj.mp (hP.distinct _ hnode)).1, fun field hfield => ?_⟩
      exact hP.inherited _ hnode _ (List.mem_map.mpr ⟨field, hfield, rfl⟩)
  | null =>
      cases h
      exact ⟨Table.distinct_nil, List.forall_mem_nil _⟩
  | _ => cases h

theorem kept_merge {changes : Table Node} (hchanges : ∀ field ∈ changes, P field.2)
    {fields : Table Node} (hkeys : Table.Distinct fields) (hfields : ∀ field ∈ fields, P field.2) :
    Table.Distinct (Table.merge fields changes) ∧
      ∀ field ∈ Table.merge fields changes, P field.2 :=
  ⟨Table.distinct_merge hkeys changes, fun field hfield =>
    (Table.mem_merge hfield).elim (hfields field) (hchanges field)⟩

theorem kept_draft (hP : Node.Kept floor P) {draft : Draft} {node : Node} (hdraft : draft.Lays P)
    (hle : floor ≤ label) (h : (Build.draft draft).run label = .ok (node, after)) :
    P node ∧ floor ≤ after := by
  have hrises := rises_draft draft label node after h
  rw [run_draft, Except.ok.injEq] at h
  have hbuilt := Draft.kept_build hP hdraft label hle
  rw [h] at hbuilt
  exact ⟨hbuilt, Nat.le_trans hle hrises⟩

/-- **An effect keeps what its callback keeps.** -/
theorem kept_run (hP : Node.Kept floor P) {effect : Effect} (heffect : effect.Keeps P)
    {action : Action} {view : Node} {path : Path} {current outcome : Option Node} (hview : P view)
    (hcurrent : Node.InSlot P current) (hle : floor ≤ label)
    (h : (effect.run action view path current).run label = .ok (outcome, after)) :
    Node.InSlot P outcome := by
  have hvalue := hP.getD hcurrent
  intro value houtcome
  subst houtcome
  cases effect with
  | set callback =>
      rw [run_set] at h
      obtain ⟨node, hnode, heq⟩ := run_map_ok.mp h
      cases heq
      exact (kept_draft hP (heffect action view _ hview hvalue) hle hnode).1
  | append callback =>
      rw [run_append] at h
      obtain ⟨item, between, hitem, h⟩ := run_bind_ok.mp h
      obtain ⟨hmade, hlater⟩ := kept_draft hP (heffect action view _ hview hvalue) hle hitem
      cases hitems : appendable? (current.getD .null) with
      | none =>
          rw [hitems] at h
          cases h
      | some items =>
          rw [hitems] at h
          cases h
          refine hP.arr _ _ hlater (List.forall_mem_append.mpr ⟨fun node hnode => ?_, ?_⟩)
          · exact hP.inherited _ hvalue _ (mem_children_of_appendable? hitems hnode)
          · exact List.forall_mem_singleton.mpr hmade
  | insert callback =>
      rw [run_insert] at h
      obtain ⟨item, between, hitem, h⟩ := run_bind_ok.mp h
      obtain ⟨hmade, hlater⟩ := kept_draft hP (heffect action view _ hview hvalue) hle hitem
      cases hitems : (current.getD .null).items? with
      | none =>
          rw [hitems] at h
          cases h
      | some items =>
          rw [hitems] at h
          dsimp only at h
          split at h
          · cases h
          · cases h
            have hkept : ∀ node ∈ items, P node := fun node hnode =>
              hP.inherited _ hvalue _ (mem_children_of_items? hitems hnode)
            refine hP.arr _ _ hlater (List.forall_mem_append.mpr ⟨fun node hnode => ?_, ?_⟩)
            · exact hkept node (List.mem_of_mem_take hnode)
            · exact List.forall_mem_cons.mpr
                ⟨hmade, fun node hnode => hkept node (List.mem_of_mem_drop hnode)⟩
  | assign callback =>
      rw [run_assign] at h
      cases hfields : assignable? (current.getD .null) with
      | none =>
          rw [hfields] at h
          cases h
      | some fields =>
          rw [hfields] at h
          obtain ⟨patch, between, hpatch, h⟩ := run_bind_ok.mp h
          obtain ⟨hmade, hlater⟩ := kept_draft hP (heffect action view _ hview hvalue) hle hpatch
          cases hchanges : assignable? patch with
          | none =>
              rw [hchanges] at h
              cases h
          | some changes =>
              rw [hchanges] at h
              cases h
              obtain ⟨hkeys, hheld⟩ := kept_assignable? hP hvalue hfields
              obtain ⟨-, hgiven⟩ := kept_assignable? hP hmade hchanges
              obtain ⟨hkeys, hheld⟩ := kept_merge hgiven hkeys hheld
              exact hP.obj _ _ hlater hkeys hheld
  | delete => cases h

end Effect

end Reducer
