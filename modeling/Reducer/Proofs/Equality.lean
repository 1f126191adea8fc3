/-
Deep equality, child by child.

Deep equality looks at the children of two containers name by name, and in mappings
neither at the order of the names nor at labels.  So two containers of one kind are equal
as soon as under every name both have equal children or both have none; and trees of one
content are equal.  Both need keys that are distinct, without which a field can hide
behind another of its name.
-/
import Reducer.Proofs.Alike
import Reducer.Proofs.Changes

namespace Reducer.Node

/-! ### One container at a time -/

theorem eqvItems_iff {items others : List Node} :
    eqvItems items others = true ↔
      List.Forall₂ (fun item other => item.eqv other = true) items others := by
  induction items generalizing others with
  | nil => cases others <;> simp [eqvItems]
  | cons item rest ih =>
      cases others with
      | nil => simp [eqvItems]
      | cons other others => rw [eqvItems, Bool.and_eq_true, ih, List.forall₂_cons]

theorem eqvFields_iff {fields others : List (String × Node)} :
    eqvFields fields others = true ↔ ∀ field ∈ fields, ∃ other,
      Table.get? others field.1 = some other ∧ field.2.eqv other = true := by
  induction fields with
  | nil => simp [eqvFields]
  | cons field rest ih =>
      obtain ⟨name, value⟩ := field
      rw [eqvFields, Bool.and_eq_true, ih, List.forall_mem_cons]
      cases Table.get? others name <;> simp

/-- Tables with distinct keys are as long as each other when they have the same keys. -/
theorem length_eq_of_keys {α β : Type} {table : Table α} {other : Table β}
    (htable : Table.Distinct table) (hother : Table.Distinct other)
    (h : ∀ name, (Table.get? table name).isSome = (Table.get? other name).isSome) :
    table.length = other.length := by
  have hmem : ∀ name, name ∈ Table.keys table ↔ name ∈ Table.keys other := by
    intro name
    have hhere := h name
    rw [Bool.eq_iff_iff, Option.isSome_iff_ne_none, Option.isSome_iff_ne_none, ne_eq, ne_eq,
      Table.get?_eq_none_iff, Table.get?_eq_none_iff, not_not, not_not] at hhere
    exact hhere
  have hperm := (List.perm_ext_iff_of_nodup htable hother).mpr hmem
  simpa [Table.keys] using hperm.length_eq

/-- Equal children, or none on either side. -/
abbrev EqvSlot (node other : Option Node) : Prop :=
  Option.Rel (fun a b => a.eqv b = true) node other

theorem isSome_eq_of_rel {α β : Type} {R : α → β → Prop} {x : Option α} {y : Option β}
    (h : Option.Rel R x y) : x.isSome = y.isSome := by
  cases h <;> rfl

/-- **Containers of one kind with equal children under every name are equal.** -/
theorem eqv_of_children {node other : Node} (hkind : node.kind = other.kind)
    (hcontainer : other.isContainer = true) (hnode : node.Distinct) (hother : other.Distinct)
    (h : ∀ seg, EqvSlot (node.child? seg) (other.child? seg)) : node.eqv other = true := by
  cases node with
  | arr label items =>
      cases other with
      | arr made others =>
          rw [eqv, eqvItems_iff]
          have hitems : ∀ position : Nat, EqvSlot items[position]? others[position]? :=
            fun position => h (.index position)
          have hlength : items.length = others.length := by
            refine Nat.le_antisymm (Nat.le_of_not_lt fun hlt => ?_) (Nat.le_of_not_lt fun hlt => ?_)
            · have hrel := isSome_eq_of_rel (hitems others.length)
              simp [hlt] at hrel
            · have hrel := isSome_eq_of_rel (hitems items.length)
              simp [hlt] at hrel
          refine List.forall₂_iff_get.mpr ⟨hlength, fun position hitem hmade => ?_⟩
          have hrel := hitems position
          rw [List.getElem?_eq_getElem hitem, List.getElem?_eq_getElem hmade] at hrel
          cases hrel with
          | some heqv => exact heqv
      | _ => cases hkind
  | obj label fields =>
      cases other with
      | obj made others =>
          have hkeys : Table.Distinct fields := (distinct_obj.mp hnode).1
          have hmade : Table.Distinct others := (distinct_obj.mp hother).1
          have hfields : ∀ name, EqvSlot (Table.get? fields name) (Table.get? others name) :=
            fun name => h (.key name)
          have hlength : fields.length = others.length :=
            length_eq_of_keys hkeys hmade fun name => isSome_eq_of_rel (hfields name)
          rw [eqv, Bool.and_eq_true, eqvFields_iff]
          refine ⟨by simpa using hlength, fun field hfield => ?_⟩
          have hrel := hfields field.1
          rw [Table.get?_of_mem hkeys hfield] at hrel
          cases hget : Table.get? others field.1 with
          | none => rw [hget] at hrel; cases hrel
          | some value =>
              rw [hget] at hrel
              cases hrel with
              | some heqv => exact ⟨value, rfl, heqv⟩
      | _ => cases hkind
  | _ =>
      cases other with
      | arr made others => cases hkind
      | obj made others => cases hkind
      | _ => cases hcontainer

/-! ### Content -/

/-- Trees of one content have children of one content. -/
theorem child?_toJson {node other : Node} (h : node.toJson = other.toJson) (seg : Seg) :
    (node.child? seg).map toJson = (other.child? seg).map toJson := by
  cases node with
  | arr label items =>
      cases other with
      | arr made others =>
          rw [toJson, toJson, Json.arr.injEq, itemsToJson_eq, itemsToJson_eq] at h
          cases seg with
          | key name => rfl
          | index position =>
              have hposition := congrArg (·[position]?) h
              simpa [child?] using hposition
      | _ => simp [toJson] at h
  | obj label fields =>
      cases other with
      | obj made others =>
          rw [toJson_obj, toJson_obj, Json.obj.injEq] at h
          cases seg with
          | key name =>
              have hname := congrArg (Table.get? · name) h
              simpa [child?, Table.get?_mapValues] using hname
          | index position => rfl
      | _ => simp [toJson] at h
  | _ => cases other <;> simp [toJson, child?] at h ⊢

theorem kind_toJson {node other : Node} (h : node.toJson = other.toJson) :
    node.kind = other.kind := by
  cases node <;> cases other <;> simp [toJson, kind] at h ⊢

/-- **Trees of one content are equal.** -/
theorem eqv_of_toJson_eq {node other : Node} (hnode : node.Distinct) (hother : other.Distinct)
    (h : node.toJson = other.toJson) : node.eqv other = true := by
  induction node, other using pairInduction with
  | step node other ih =>
      by_cases hcontainer : other.isContainer = true
      · refine eqv_of_children (kind_toJson h) hcontainer hnode hother fun seg => ?_
        have hchild := child?_toJson h seg
        cases hone : node.child? seg with
        | none =>
            cases htwo : other.child? seg with
            | none => exact .none
            | some after => rw [hone, htwo] at hchild; cases hchild
        | some before =>
            cases htwo : other.child? seg with
            | none => rw [hone, htwo] at hchild; cases hchild
            | some after =>
                rw [hone, htwo] at hchild
                exact .some (ih seg before after hone htwo (hnode.child? seg before hone)
                  (hother.child? seg after htwo) (Option.some.inj hchild))
      · cases other with
        | arr made others => exact absurd rfl hcontainer
        | obj made others => exact absurd rfl hcontainer
        | num made =>
            cases node with
            | num value =>
                cases h
                exact Number.eqv_refl made
            | _ => cases h
        | _ => cases node <;> simp_all [toJson, eqv]

theorem eqv_refl {node : Node} (h : node.Distinct) : node.eqv node = true :=
  eqv_of_toJson_eq h h rfl

/-- Two nodes that are the same are equal, as long as the same containers have one content. -/
theorem eqv_of_same {node other : Node} (hnode : node.Distinct) (hother : other.Distinct)
    (hsame : node.same other = true)
    (hcontent : node.isContainer = true → node.toJson = other.toJson) : node.eqv other = true := by
  cases hcontainer : node.isContainer with
  | true => exact eqv_of_toJson_eq hnode hother (hcontent hcontainer)
  | false =>
      cases node with
      | arr label items => cases hcontainer
      | obj label fields => cases hcontainer
      | _ => cases other <;> exact hsame

end Reducer.Node
