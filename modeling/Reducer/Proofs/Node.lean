/-
What a state tree must satisfy to be one.

The type of nodes has more trees than there are states.  A state never has an object
with a key twice, which is `Distinct`, and every label in it was drawn before the
next one to be drawn, which is `Before`.  Both hold of a tree just when they hold of
the top and of every child, and so they are handed down along any path.
-/
import Reducer.Node.Draft
import Reducer.Proofs.Table

namespace Reducer

theorem Number.eqv_refl (number : Number) : number.eqv number = true := by
  cases number <;> simp [Number.eqv, Binary64.eqv]

theorem Number.eqv_comm (number other : Number) : number.eqv other = other.eqv number := by
  cases number with
  | int value =>
      cases other with
      | int made => simp [Number.eqv, Bool.beq_comm]
      | float made => rfl
  | float value =>
      cases other with
      | int made => rfl
      | float made =>
          rw [Number.eqv, Number.eqv, Bool.eq_iff_iff, Binary64.eqv_iff, Binary64.eqv_iff]
          grind

theorem Binary64.eqv_trans {one two three : Binary64} (h : one.eqv two = true)
    (hnext : two.eqv three = true) : one.eqv three = true := by
  rw [eqv_iff] at h hnext ⊢
  grind

theorem Number.eqv_trans {one two three : Number} (h : one.eqv two = true)
    (hnext : two.eqv three = true) : one.eqv three = true := by
  cases one with
  | int value =>
      cases two with
      | int other => rw [eq_of_beq h]; exact hnext
      | float other => cases h
  | float value =>
      cases two with
      | int other => cases h
      | float other =>
          cases three with
          | int made => cases hnext
          | float made => exact Binary64.eqv_trans h hnext

namespace Node

/-- Induction over a tree: a container has the property once all its children have it. -/
@[elab_as_elim]
theorem treeInduction {motive : Node → Prop}
    (scalar : ∀ node, node.isContainer = false → motive node)
    (arr : ∀ label items, (∀ item ∈ items, motive item) → motive (.arr label items))
    (obj : ∀ label fields, (∀ field ∈ fields, motive field.2) → motive (.obj label fields))
    (node : Node) : motive node :=
  @Node.rec motive (fun items => ∀ item ∈ items, motive item)
    (fun fields => ∀ field ∈ fields, motive field.2) (fun field => motive field.2)
    (scalar _ rfl) (fun _ => scalar _ rfl) (fun _ => scalar _ rfl) (fun _ => scalar _ rfl)
    arr obj (by simp) (fun _ _ hfirst hrest => List.forall_mem_cons.mpr ⟨hfirst, hrest⟩)
    (by simp) (fun _ _ hfirst hrest => List.forall_mem_cons.mpr ⟨hfirst, hrest⟩)
    (fun _ _ h => h) node

theorem same_refl (node : Node) : node.same node = true := by
  cases node <;> simp [same, Number.eqv_refl]

/-- Nodes of one kind are both containers or neither. -/
theorem isContainer_eq_of_kind {node other : Node} (h : node.kind = other.kind) :
    node.isContainer = other.isContainer := by
  cases node <;> cases other <;> first | rfl | cases h

theorem isNull_eq_of_kind {node other : Node} (h : node.kind = other.kind) :
    node.isNull = other.isNull := by
  cases node <;> cases other <;> first | rfl | cases h

theorem arr_or_obj {node : Node} (h : node.isContainer = true) :
    (∃ label items, node = .arr label items) ∨ ∃ label fields, node = .obj label fields := by
  cases node with
  | arr label items => exact Or.inl ⟨label, items, rfl⟩
  | obj label fields => exact Or.inr ⟨label, fields, rfl⟩
  | _ => cases h

theorem child?_key {node child : Node} {name : String} (h : node.child? (.key name) = some child) :
    ∃ label fields, node = .obj label fields ∧ Table.get? fields name = some child := by
  cases node with
  | obj label fields => exact ⟨label, fields, rfl, h⟩
  | _ => cases h

theorem isContainer_of_child? {node child : Node} {seg : Seg} (h : node.child? seg = some child) :
    node.isContainer = true := by
  cases node <;> first | rfl | cases h

theorem at?_append (front rest : Path) :
    ∀ node : Node, node.at? (front ++ rest) = (node.at? front).bind (at? · rest) := by
  induction front with
  | nil => intro node; rfl
  | cons seg front ih =>
      intro node
      rw [List.cons_append, at?, at?, Option.bind_assoc]
      exact congrArg _ (funext ih)

/-! ### Children -/

/-- The children of a container. -/
def children : Node → List Node
  | arr _ items => items
  | obj _ fields => fields.map (·.2)
  | _ => []

/-- Induction over a tree: a node has the property once all its children have it. -/
@[elab_as_elim]
theorem childInduction {motive : Node → Prop}
    (step : ∀ node, (∀ child ∈ node.children, motive child) → motive node) (node : Node) :
    motive node := by
  induction node using treeInduction with
  | scalar node hnode =>
      refine step node fun child hchild => ?_
      cases node with
      | arr label items => cases hnode
      | obj label fields => cases hnode
      | _ => cases hchild
  | arr label items ih => exact step _ ih
  | obj label fields ih => exact step _ (List.forall_mem_map.mpr ih)

theorem mem_children_of_child? {node child : Node} {seg : Seg} (h : node.child? seg = some child) :
    child ∈ node.children := by
  cases node with
  | arr label items =>
      cases seg with
      | key name => cases h
      | index position => exact List.mem_of_getElem? h
  | obj label fields =>
      cases seg with
      | key name => exact List.mem_map.mpr ⟨(name, child), Table.mem_of_get? h, rfl⟩
      | index position => cases h
  | _ => cases h

/-- A property that a tree hands down to its children. -/
def Inherited (P : Node → Prop) : Prop :=
  ∀ node, P node → ∀ child ∈ node.children, P child

theorem Inherited.at? {P : Node → Prop} (hP : Inherited P) {path : Path} :
    ∀ {node value : Node}, P node → node.at? path = some value → P value := by
  induction path with
  | nil =>
      intro node value h hvalue
      cases hvalue
      exact h
  | cons seg rest ih =>
      intro node value h hvalue
      rw [Node.at?, Option.bind_eq_some_iff] at hvalue
      obtain ⟨child, hchild, hvalue⟩ := hvalue
      exact ih (hP node h child (mem_children_of_child? hchild)) hvalue

/-! ### Distinct keys -/

mutual

/-- No object in the tree has a key twice. -/
def Distinct : Node → Prop
  | arr _ items => DistinctItems items
  | obj _ fields => Table.Distinct fields ∧ DistinctFields fields
  | _ => True
termination_by structural node => node

/-- No object in the items has a key twice. -/
def DistinctItems : List Node → Prop
  | [] => True
  | item :: rest => Distinct item ∧ DistinctItems rest
termination_by structural items => items

/-- No object in the values of the fields has a key twice. -/
def DistinctFields : List (String × Node) → Prop
  | [] => True
  | (_, value) :: rest => Distinct value ∧ DistinctFields rest
termination_by structural fields => fields

end

theorem distinctItems_iff {items : List Node} :
    DistinctItems items ↔ ∀ item ∈ items, Distinct item := by
  induction items with
  | nil => simp [DistinctItems]
  | cons item rest ih => rw [DistinctItems, List.forall_mem_cons, ih]

theorem distinctFields_iff {fields : List (String × Node)} :
    DistinctFields fields ↔ ∀ field ∈ fields, Distinct field.2 := by
  induction fields with
  | nil => simp [DistinctFields]
  | cons field rest ih => rw [DistinctFields, List.forall_mem_cons, ih]

theorem distinct_arr {label : Label} {items : List Node} :
    Distinct (.arr label items) ↔ ∀ item ∈ items, Distinct item := by
  rw [Distinct, distinctItems_iff]

theorem distinct_obj {label : Label} {fields : List (String × Node)} :
    Distinct (.obj label fields) ↔
      Table.Distinct fields ∧ ∀ field ∈ fields, Distinct field.2 := by
  rw [Distinct, distinctFields_iff]

theorem inherited_distinct : Inherited Distinct := by
  intro node h child hchild
  cases node with
  | arr label items => exact distinct_arr.mp h child hchild
  | obj label fields =>
      obtain ⟨field, hfield, rfl⟩ := List.mem_map.mp hchild
      exact (distinct_obj.mp h).2 field hfield
  | _ => cases hchild

/-- The value of a slot, if there is one, has distinct keys. -/
def DistinctSlot (current : Option Node) : Prop :=
  ∀ value, current = some value → value.Distinct

theorem DistinctSlot.getD {current : Option Node} (h : DistinctSlot current) :
    (current.getD .null).Distinct := by
  cases current with
  | none => trivial
  | some value => exact h value rfl

/-! ### Labels -/

mutual

/-- All labels in a tree. -/
def labels : Node → List Label
  | arr label items => label :: labelsOfItems items
  | obj label fields => label :: labelsOfFields fields
  | _ => []
termination_by structural node => node

/-- All labels in the items. -/
def labelsOfItems : List Node → List Label
  | [] => []
  | item :: rest => labels item ++ labelsOfItems rest
termination_by structural items => items

/-- All labels in the values of the fields. -/
def labelsOfFields : List (String × Node) → List Label
  | [] => []
  | (_, value) :: rest => labels value ++ labelsOfFields rest
termination_by structural fields => fields

end

theorem labelsOfItems_eq (items : List Node) : labelsOfItems items = items.flatMap labels := by
  induction items with
  | nil => rfl
  | cons item rest ih => rw [labelsOfItems, List.flatMap_cons, ih]

theorem labelsOfFields_eq (fields : List (String × Node)) :
    labelsOfFields fields = fields.flatMap fun field => labels field.2 := by
  induction fields with
  | nil => rfl
  | cons field rest ih => rw [labelsOfFields, List.flatMap_cons, ih]

/-- Every label in the tree was drawn before `next`. -/
def Before (node : Node) (next : Label) : Prop :=
  ∀ label ∈ node.labels, label < next

theorem before_arr {label next : Label} {items : List Node} :
    Before (.arr label items) next ↔ label < next ∧ ∀ item ∈ items, item.Before next := by
  simp only [Before, labels, labelsOfItems_eq, List.forall_mem_cons, List.forall_mem_flatMap]

theorem before_obj {label next : Label} {fields : List (String × Node)} :
    Before (.obj label fields) next ↔ label < next ∧ ∀ field ∈ fields, field.2.Before next := by
  simp only [Before, labels, labelsOfFields_eq, List.forall_mem_cons, List.forall_mem_flatMap]

theorem Before.mono {node : Node} {next later : Label} (h : node.Before next)
    (hle : next ≤ later) : node.Before later :=
  fun label hlabel => Nat.lt_of_lt_of_le (h label hlabel) hle

theorem inherited_before (next : Label) : Inherited (Before · next) := by
  intro node h child hchild
  cases node with
  | arr label items => exact (before_arr.mp h).2 child hchild
  | obj label fields =>
      obtain ⟨field, hfield, rfl⟩ := List.mem_map.mp hchild
      exact (before_obj.mp h).2 field hfield
  | _ => cases hchild

/-- The label of a container. -/
def label? : Node → Option Label
  | arr label _ | obj label _ => some label
  | _ => none

/-- A container made later is another node. -/
theorem same_eq_false_of_before {node made : Node} {next label : Label} (h : node.Before next)
    (hmade : made.label? = some label) (hle : next ≤ label) : node.same made = false := by
  cases made with
  | arr new items =>
      cases hmade
      cases node with
      | arr other others =>
          have hlt : other < label := Nat.lt_of_lt_of_le (before_arr.mp h).1 hle
          simpa only [same, beq_eq_false_iff_ne] using Nat.ne_of_lt hlt
      | _ => rfl
  | obj new fields =>
      cases hmade
      cases node with
      | obj other others =>
          have hlt : other < label := Nat.lt_of_lt_of_le (before_obj.mp h).1 hle
          simpa only [same, beq_eq_false_iff_ne] using Nat.ne_of_lt hlt
      | _ => rfl
  | _ => cases hmade

end Node

end Reducer
