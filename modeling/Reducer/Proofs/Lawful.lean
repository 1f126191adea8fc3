/-
Laws of equality and of identity.

Deep equality of two objects counts the fields of both and then looks the fields of the one
up in the other, never the other way round.  That this is symmetric rests on keys being
distinct: as many keys, and all of the one among those of the other, leave no key over.  So
trees are equal just when they are of one kind and their children are equal name by name, and
it is in this form that the laws are shown, by induction on the trees.

Identity needs no such thing, being equality of labels.  What it needs in order to imply
deep equality is that a container is one container: trees that exist side by side hold the
same content under the same label, as those of one heap do.
-/
import Reducer.Proofs.Unreported

namespace Reducer.Node

/-! ### Identity -/

theorem same_trans {one two three : Node} (h : one.same two = true)
    (hnext : two.same three = true) : one.same three = true := by
  cases one with
  | num value =>
      cases two with
      | num other =>
          cases three with
          | num made => exact Number.eqv_trans h hnext
          | _ => cases hnext
      | _ => cases h
  | _ => cases two <;> cases three <;> simp_all [same]

/-- Scalars are equal when they are the same. -/
theorem eqv_eq_same {node other : Node} (h : node.isContainer = false) :
    node.eqv other = node.same other := by
  cases node with
  | arr label items => cases h
  | obj label fields => cases h
  | _ => cases other <;> rfl

/-! ### Equal children -/

theorem kind_eq_of_eqv {node other : Node} (h : node.eqv other = true) :
    node.kind = other.kind := by
  cases node <;> cases other <;> first | rfl | cases h

/-- Fields that are all found among as many others leave none of those over. -/
theorem get?_of_eqvFields {fields others : List (String × Node)} (hkeys : Table.Distinct fields)
    (hlength : fields.length = others.length) (h : eqvFields fields others = true)
    (name : String) : EqvSlot (Table.get? fields name) (Table.get? others name) := by
  have hfound : ∀ key value, Table.get? fields key = some value →
      ∃ other, Table.get? others key = some other ∧ value.eqv other = true :=
    fun key value hvalue => eqvFields_iff.mp h (key, value) (Table.mem_of_get? hvalue)
  have hperm := Table.perm_keys hkeys hlength fun key value hvalue =>
    (hfound key value hvalue).imp fun _ hother => hother.1
  cases hget : Table.get? fields name with
  | some value =>
      obtain ⟨other, hother, heqv⟩ := hfound name value hget
      rw [hother]
      exact .some heqv
  | none =>
      rw [Table.get?_eq_none_iff, hperm.mem_iff, ← Table.get?_eq_none_iff] at hget
      rw [hget]
      exact .none

/-- **Equal containers have equal children under every name, or none on either side.** -/
theorem child?_of_eqv {node other : Node} (hnode : node.Distinct) (h : node.eqv other = true)
    (seg : Seg) : EqvSlot (node.child? seg) (other.child? seg) := by
  cases node with
  | arr label items =>
      cases other with
      | arr made others =>
          cases seg with
          | key name => exact .none
          | index position => exact rel_getElem? (eqvItems_iff.mp h) position
      | _ => cases h
  | obj label fields =>
      cases other with
      | obj made others =>
          cases seg with
          | index position => exact .none
          | key name =>
              rw [eqv, Bool.and_eq_true, beq_iff_eq] at h
              exact get?_of_eqvFields (distinct_obj.mp hnode).1 h.1 h.2 name
      | _ => cases h
  | _ => cases other <;> first | exact .none | cases h

/-! ### An equivalence -/

/-- **Deep equality is symmetric.** -/
theorem eqv_symm {node other : Node} (hnode : node.Distinct) (hother : other.Distinct)
    (h : node.eqv other = true) : other.eqv node = true := by
  induction node, other using pairInduction with
  | step node other ih =>
      have hkind := kind_eq_of_eqv h
      cases hcontainer : node.isContainer with
      | false =>
          rw [eqv_eq_same ((isContainer_eq_of_kind hkind).symm.trans hcontainer), same_comm,
            ← eqv_eq_same hcontainer]
          exact h
      | true =>
          refine eqv_of_children hkind.symm hcontainer hother hnode fun seg => ?_
          refine Build.rel_symm (child?_of_eqv hnode h seg) fun {before after} => ?_
          intro hbefore hafter heqv
          exact ih seg before after hbefore hafter (hnode.child? seg before hbefore)
            (hother.child? seg after hafter) heqv

/-- **Deep equality is transitive.** -/
theorem eqv_trans {one two three : Node} (hone : one.Distinct) (htwo : two.Distinct)
    (hthree : three.Distinct) (h : one.eqv two = true) (hnext : two.eqv three = true) :
    one.eqv three = true := by
  induction one, two using pairInduction generalizing three with
  | step one two ih =>
      have hkind := kind_eq_of_eqv h
      have hkinds := kind_eq_of_eqv hnext
      cases hcontainer : one.isContainer with
      | false =>
          have htwos : two.isContainer = false :=
            (isContainer_eq_of_kind hkind).symm.trans hcontainer
          rw [eqv_eq_same hcontainer] at h ⊢
          rw [eqv_eq_same htwos] at hnext
          exact same_trans h hnext
      | true =>
          have hthrees : three.isContainer = true :=
            (isContainer_eq_of_kind (hkind.trans hkinds)).symm.trans hcontainer
          refine eqv_of_children (hkind.trans hkinds) hthrees hone hthree fun seg => ?_
          refine Build.rel_comp (child?_of_eqv hone h seg) (child?_of_eqv htwo hnext seg) ?_
          intro first second third hfirst hsecond hthird heqv hlater
          exact ih seg first second hfirst hsecond (hone.child? seg first hfirst)
            (htwo.child? seg second hsecond) (hthree.child? seg third hthird) heqv hlater

/-! ### Other children, another order, and further down -/

/-- **Another child that is equal makes an equal container.** -/
theorem eqv_putChild? {node made child value : Node} {seg : Seg}
    (h : node.putChild? seg (some value) = some made) (hnode : node.Distinct)
    (hvalue : value.Distinct) (hchild : node.child? seg = some child)
    (heqv : child.eqv value = true) : node.eqv made = true := by
  have hslot : DistinctSlot (some value) := fun _ hsome => Option.some.inj hsome ▸ hvalue
  have hkind := kind_putChild? h
  have hcontainer : made.isContainer = true := by
    rw [isContainer_eq_of_kind hkind]
    exact isContainer_of_child? hchild
  refine eqv_of_children hkind.symm hcontainer hnode (distinct_putChild? hnode hslot h) ?_
  intro other
  rw [child?_putChild? h]
  by_cases hother : seg = other
  · rw [if_pos hother, ← hother, hchild]
    exact .some heqv
  · rw [if_neg hother]
    exact eqvSlot_refl (hnode.child? other)

theorem distinct_of_perm {label : Label} {fields others : List (String × Node)}
    (hnode : (obj label fields).Distinct) (h : fields.Perm others) (made : Label) :
    (obj made others).Distinct := by
  obtain ⟨hkeys, hvalues⟩ := distinct_obj.mp hnode
  refine distinct_obj.mpr ⟨(h.map _).nodup_iff.mp hkeys, ?_⟩
  exact fun field hfield => hvalues field (h.mem_iff.mpr hfield)

/-- **Objects are equal in whatever order their fields come.** -/
theorem eqv_of_perm {label : Label} {fields others : List (String × Node)}
    (hnode : (obj label fields).Distinct) (h : fields.Perm others) (made : Label) :
    (obj label fields).eqv (obj made others) = true := by
  refine eqv_of_children rfl rfl hnode (distinct_of_perm hnode h made) fun seg => ?_
  have hsame : (obj label fields).child? seg = (obj made others).child? seg := by
    cases seg with
    | key name => exact Table.get?_of_perm (distinct_obj.mp hnode).1 h name
    | index position => rfl
  rw [← hsame]
  exact eqvSlot_refl (hnode.child? seg)

/-- **Equal trees have equal nodes at every place, or none on either side.** -/
theorem at?_of_eqv {path : Path} {node other : Node} (hnode : node.Distinct)
    (hother : other.Distinct) (h : node.eqv other = true) :
    EqvSlot (node.at? path) (other.at? path) := by
  induction path generalizing node other with
  | nil => exact .some h
  | cons seg rest ih =>
      refine Build.rel_bind (child?_of_eqv hnode h seg) fun {before after} hbefore hafter heqv => ?_
      exact ih (hnode.child? seg before hbefore) (hother.child? seg after hafter) heqv

/-! ### Equality as it can be seen -/

/-- Two nodes that cannot be told apart without looking inside. -/
def LooksLike (node other : Node) : Prop :=
  node.kind = other.kind ∧ (node.isContainer = false → node.same other = true)

theorem looksLike_of_eqv {node other : Node} (h : node.eqv other = true) : node.LooksLike other :=
  ⟨kind_eq_of_eqv h, fun hnode => (eqv_eq_same hnode).symm.trans h⟩

/-- **Trees that cannot be told apart at any place are equal.** -/
theorem eqv_of_looksLike {node other : Node} (hnode : node.Distinct) (hother : other.Distinct)
    (h : ∀ path, Option.Rel LooksLike (node.at? path) (other.at? path)) :
    node.eqv other = true := by
  induction node, other using pairInduction with
  | step node other ih =>
      obtain ⟨hkind, hscalar⟩ : node.LooksLike other := by
        have hhere := h []
        rw [at?, at?] at hhere
        cases hhere with
        | some hlooks => exact hlooks
      cases hcontainer : node.isContainer with
      | false => exact (eqv_eq_same hcontainer).trans (hscalar hcontainer)
      | true =>
          have hcontainers : other.isContainer = true :=
            (isContainer_eq_of_kind hkind).symm.trans hcontainer
          refine eqv_of_children hkind hcontainers hnode hother fun seg => ?_
          have hslot : Option.Rel LooksLike (node.child? seg) (other.child? seg) := by
            simpa [at?] using h [seg]
          refine Build.rel_mono hslot fun {before after} hbefore hafter _ => ?_
          refine ih seg before after hbefore hafter (hnode.child? seg before hbefore)
            (hother.child? seg after hafter) fun path => ?_
          have hpath := h (seg :: path)
          rw [at?, at?, hbefore, hafter, Option.bind_some, Option.bind_some] at hpath
          exact hpath

/-! ### Trees side by side -/

/-- Trees that can exist side by side. -/
structure Coexist (trees : Node → Prop) : Prop where
  /-- No object in them has a key twice. -/
  distinct : ∀ {node}, trees node → node.Distinct
  /-- The same container has the same content in all of them. -/
  content : ∀ {node other}, trees node → trees other → node.isContainer = true →
    node.same other = true → node.toJson = other.toJson

/-- The trees of a heap: their keys are distinct and all their containers are the heap's. -/
def InHeap (heap : Label → Node) (fixed : Label) (node : Node) : Prop :=
  node.Known heap fixed ∧ node.Before fixed

theorem coexist_inHeap (heap : Label → Node) (fixed : Label) : Coexist (InHeap heap fixed) where
  distinct h := h.1.1
  content h hother hcontainer hsame := by rw [eq_of_same h.1.2 hother.1.2 h.2 hcontainer hsame]

/-- What deep equality and identity of such trees can be relied on for. -/
structure EqualityLaws (trees : Node → Prop) : Prop where
  /-- Deep equality is an equivalence. -/
  equal : Equivalence fun one two : { node // trees node } => one.1.eqv two.1 = true
  /-- Identity is an equivalence. -/
  identical : Equivalence fun one two : { node // trees node } => one.1.same two.1 = true
  /-- What is the same is equal. -/
  equal_of_same : ∀ {one two}, trees one → trees two → one.same two = true → one.eqv two = true
  /-- An array with an equal item in place of another is equal to what it was. -/
  item : ∀ {label items position child value}, trees (arr label items) → trees value →
    items[position]? = some child → child.eqv value = true →
    ∀ made, (arr label items).eqv (arr made (items.set position value)) = true
  /-- An object with an equal value in place of another is equal to what it was. -/
  field : ∀ {label fields name child value}, trees (obj label fields) → trees value →
    Table.get? fields name = some child → child.eqv value = true →
    ∀ made, (obj label fields).eqv (obj made (Table.set fields name value)) = true
  /-- Putting the fields of an object in another order changes no comparison. -/
  order : ∀ {label fields others}, trees (obj label fields) → fields.Perm others →
    ∀ made {node}, trees node →
      (obj label fields).eqv node = (obj made others).eqv node ∧
      node.eqv (obj label fields) = node.eqv (obj made others)
  /-- Equal trees hold equal values at every place, or none on either side. -/
  places : ∀ {one two}, trees one → trees two → one.eqv two = true →
    ∀ path, EqvSlot (one.at? path) (two.at? path)
  /-- And trees are equal if they look alike at every place, where no order can be seen. -/
  seen : ∀ {one two}, trees one → trees two →
    (one.eqv two = true ↔ ∀ path, Option.Rel LooksLike (one.at? path) (two.at? path))

/--
**Deep equality and identity are lawful.**  Among trees that can exist side by side both are
equivalences, and what is the same is equal.  Deep equality goes on to hold if a child is
replaced by an equal one and whatever order the keys are put in.  Equal trees agree at every
place, and those that cannot be told apart at any place are equal.
-/
theorem equality_laws {trees : Node → Prop} (h : Coexist trees) : EqualityLaws trees where
  equal :=
    ⟨fun one => eqv_refl (h.distinct one.2),
      fun {one two} => eqv_symm (h.distinct one.2) (h.distinct two.2),
      fun {one two three} => eqv_trans (h.distinct one.2) (h.distinct two.2) (h.distinct three.2)⟩
  identical :=
    ⟨fun one => same_refl one.1, fun {one two} hsame => (same_comm two.1 one.1).trans hsame,
      same_trans⟩
  equal_of_same hone htwo hsame :=
    eqv_of_same (h.distinct hone) (h.distinct htwo) hsame fun hcontainer =>
      h.content hone htwo hcontainer hsame
  item {label items position child value} harray hvalue hchild heqv made := by
    have hput : (arr label items).putChild? (.index position) (some value) =
        some (arr label (items.set position value)) :=
      if_pos (List.getElem?_eq_some_iff.mp hchild).1
    have hequal := eqv_putChild? hput (h.distinct harray) (h.distinct hvalue) hchild heqv
    exact hequal
  field {label fields name child value} hobject hvalue hchild heqv made := by
    have hput : (obj label fields).putChild? (.key name) (some value) =
        some (obj label (Table.set fields name value)) := rfl
    have hequal := eqv_putChild? hput (h.distinct hobject) (h.distinct hvalue) hchild heqv
    exact hequal
  order {label fields others} hobject hperm made node hnode := by
    have hdistinct := h.distinct hobject
    have hothers := distinct_of_perm hdistinct hperm made
    have hequal := eqv_of_perm hdistinct hperm made
    have hback := eqv_symm hdistinct hothers hequal
    constructor
    · rw [Bool.eq_iff_iff]
      exact ⟨eqv_trans hothers hdistinct (h.distinct hnode) hback,
        eqv_trans hdistinct hothers (h.distinct hnode) hequal⟩
    · rw [Bool.eq_iff_iff]
      exact ⟨fun heqv => eqv_trans (h.distinct hnode) hdistinct hothers heqv hequal,
        fun heqv => eqv_trans (h.distinct hnode) hothers hdistinct heqv hback⟩
  places hone htwo heqv path := at?_of_eqv (h.distinct hone) (h.distinct htwo) heqv
  seen hone htwo := by
    refine ⟨fun heqv path => ?_, eqv_of_looksLike (h.distinct hone) (h.distinct htwo)⟩
    exact Build.rel_mono (at?_of_eqv (h.distinct hone) (h.distinct htwo) heqv)
      fun _ _ hequal => looksLike_of_eqv hequal

/-- An object with a list in it. -/
def listFirst : Node :=
  .obj 1 [("list", .arr 0 [.num (.int 1), .null]), ("name", .str "x")]

/-- Another with the same list in it and its keys the other way round. -/
def listLast : Node :=
  .obj 2 [("name", .str "x"), ("list", .arr 0 [.num (.int 1), .null])]

/-- The containers of the two. -/
def listHeap : Label → Node
  | 0 => .arr 0 [.num (.int 1), .null]
  | 1 => listFirst
  | _ => listLast

theorem inHeap_listFirst : InHeap listHeap 3 listFirst := by
  refine ⟨⟨?_, fun _ => rfl, ⟨fun _ => rfl, trivial, trivial, trivial⟩, trivial, trivial⟩, ?_⟩
  · simp [listFirst, Distinct, DistinctItems, DistinctFields, Table.Distinct, Table.keys]
  · simp [listFirst, Before, labels, labelsOfItems, labelsOfFields]

theorem inHeap_listLast : InHeap listHeap 3 listLast := by
  refine ⟨⟨?_, fun _ => rfl, trivial, ⟨fun _ => rfl, trivial, trivial, trivial⟩, trivial⟩, ?_⟩
  · simp [listLast, Distinct, DistinctItems, DistinctFields, Table.Distinct, Table.keys]
  · simp [listLast, Before, labels, labelsOfItems, labelsOfFields]

/-- The two are other nodes, equal in either direction, and so at every place. -/
theorem equality_laws_listHeap :
    Coexist (InHeap listHeap 3) ∧ InHeap listHeap 3 listFirst ∧ InHeap listHeap 3 listLast ∧
      EqualityLaws (InHeap listHeap 3) ∧
      listFirst.same listLast = false ∧ listFirst.eqv listLast = true ∧
      listLast.eqv listFirst = true ∧
      ∀ path, EqvSlot (listFirst.at? path) (listLast.at? path) := by
  have hcoexist : Coexist (InHeap listHeap 3) := coexist_inHeap listHeap 3
  have hlaws : EqualityLaws (InHeap listHeap 3) := equality_laws hcoexist
  have hequal : listFirst.eqv listLast = true := by decide
  exact ⟨hcoexist, inHeap_listFirst, inHeap_listLast, hlaws, rfl, hequal,
    hlaws.equal.symm (x := ⟨_, inHeap_listFirst⟩) (y := ⟨_, inHeap_listLast⟩) hequal,
    hlaws.places inHeap_listFirst inHeap_listLast hequal⟩

end Reducer.Node
