/-
Rebuilding a container slot by slot.

Objects and arrays are rebuilt by two loops of their own.  Both visit the slots of
the container in order and then put what became of them under a new label, so one
loop over `Node.slots` says what either does: `visitAll` visits, `refill` puts back.

A visit happens at a label, and which one depends on the slots before it.
`VisitedAt` says that a slot is visited from a given label on; a loop that succeeds
has visited every slot so, and only so.
-/
import Mathlib.Data.List.Forall2
import Reducer.Proofs.Node
import Reducer.Proofs.Walk.Levels

namespace Reducer

open Build

namespace Node

/-- The slots of a container: the name and the value of each child, in order. -/
def slots : Node → List (Seg × Node)
  | obj _ fields => fields.map fun field => (.key field.1, field.2)
  | arr _ items => items.zipIdx.map fun item => (.index item.2, item.1)
  | _ => []

theorem mem_children_of_mem_slots {node child : Node} {seg : Seg} (h : (seg, child) ∈ node.slots) :
    child ∈ node.children := by
  cases node with
  | arr label items =>
      obtain ⟨item, hitem, heq⟩ := List.mem_map.mp h
      cases heq
      exact List.fst_mem_of_mem_zipIdx hitem
  | obj label fields =>
      obtain ⟨field, hfield, heq⟩ := List.mem_map.mp h
      cases heq
      exact List.mem_map.mpr ⟨field, hfield, rfl⟩
  | _ => cases h

theorem isContainer_of_mem_slots {node child : Node} {seg : Seg} (h : (seg, child) ∈ node.slots) :
    node.isContainer = true := by
  cases node <;> first | rfl | cases h

theorem Inherited.of_mem_slots {P : Node → Prop} (hP : Inherited P) {node child : Node} {seg : Seg}
    (h : P node) (hslot : (seg, child) ∈ node.slots) : P child :=
  hP node h child (mem_children_of_mem_slots hslot)

theorem mem_slots_of_child? {node child : Node} {seg : Seg} (h : node.child? seg = some child) :
    (seg, child) ∈ node.slots := by
  cases node with
  | arr label items =>
      cases seg with
      | key name => cases h
      | index position =>
          refine List.mem_map.mpr ⟨(child, position), ?_, rfl⟩
          exact List.mem_zipIdx_iff_getElem?.mpr h
  | obj label fields =>
      cases seg with
      | key name => exact List.mem_map.mpr ⟨(name, child), Table.mem_of_get? h, rfl⟩
      | index position => cases h
  | _ => cases h

/-- A child with its name, where no name comes twice. -/
theorem child?_of_mem_slots {node child : Node} {seg : Seg} (hdistinct : node.Distinct)
    (h : (seg, child) ∈ node.slots) : node.child? seg = some child := by
  cases node with
  | arr label items =>
      obtain ⟨item, hitem, heq⟩ := List.mem_map.mp h
      cases heq
      exact List.mem_zipIdx_iff_getElem?.mp hitem
  | obj label fields =>
      obtain ⟨field, hfield, heq⟩ := List.mem_map.mp h
      cases heq
      exact Table.get?_of_mem (distinct_obj.mp hdistinct).1 hfield
  | _ => cases h

theorem at?_concat_of_mem_slots {node parent child : Node} {path : Path} {seg : Seg}
    (hdistinct : node.Distinct) (hparent : node.at? path = some parent)
    (hslot : (seg, child) ∈ parent.slots) : node.at? (path ++ [seg]) = some child := by
  rw [at?_append, hparent, Option.bind_some, at?,
    child?_of_mem_slots (inherited_distinct.at? hdistinct hparent) hslot]
  rfl

/-- The fields whose slots still hold a value, with that value. -/
def keepFields : List (String × Node) → List (Option Node) → List (String × Node)
  | (name, _) :: rest, some value :: outcomes => (name, value) :: keepFields rest outcomes
  | _ :: rest, none :: outcomes => keepFields rest outcomes
  | _, _ => []

/-- The container with what became of its slots, under another label. -/
def refill : Node → Label → List (Option Node) → Node
  | obj _ fields, label, outcomes => obj label (keepFields fields outcomes)
  | arr _ _, label, outcomes => arr label (Walker.compact outcomes)
  | scalar, _, _ => scalar

theorem kind_refill (node : Node) (label : Label) (outcomes : List (Option Node)) :
    (node.refill label outcomes).kind = node.kind := by
  cases node <;> rfl

end Node

theorem visitFields_cons (visit : Seg → Node → Option (Option Node)) (name : String) (value : Node)
    (rest : List (String × Node)) :
    Walker.visitFields visit ((name, value) :: rest) =
      (visit (.key name) value).bind fun outcome =>
        (Walker.visitFields visit rest).map fun others =>
          match outcome with
          | some value => (name, value) :: others
          | none => others := by
  rw [Walker.visitFields]
  cases visit (.key name) value with
  | none => rfl
  | some outcome =>
      show (Walker.visitFields visit rest).bind _ = (Walker.visitFields visit rest).map _
      cases Walker.visitFields visit rest with
      | none => rfl
      | some others => cases outcome <;> rfl

namespace Walker

/-- Items that all stay leave a slot each. -/
theorem visitItems_eq_pure {m : Type → Type} [Monad m] [LawfulMonad m]
    {visit : Seg → Node → m (Option Node)}
    (h : ∀ position item, visit (.index position) item = pure (some item)) (position : Nat)
    (items : List Node) : visitItems visit position items = pure (items.map some) := by
  induction items generalizing position with
  | nil => rfl
  | cons item rest ih =>
      rw [visitItems, h, pure_bind, ih, pure_bind]
      rfl

variable {visit : Seg → Node → Build (Option Node)}

/-- Visits slots one after the other, and collects what becomes of them. -/
def visitAll (visit : Seg → Node → Build (Option Node)) :
    List (Seg × Node) → Build (List (Option Node))
  | [] => pure []
  | (seg, child) :: rest => do
      let outcome ← visit seg child
      let outcomes ← visitAll visit rest
      return outcome :: outcomes

/-! ### One loop for both kinds of container -/

theorem visitFields_eq (fields : List (String × Node)) :
    visitFields visit fields =
      Node.keepFields fields <$>
        visitAll visit (fields.map fun field => (.key field.1, field.2)) := by
  induction fields with
  | nil => rfl
  | cons field rest ih =>
      obtain ⟨name, child⟩ := field
      simp only [visitFields, List.map_cons, visitAll, ih, map_bind, bind_map_left, map_pure]
      refine congrArg _ (funext fun outcome => ?_)
      cases outcome <;> rfl

theorem visitItems_eq (position : Nat) (items : List Node) :
    visitItems visit position items =
      visitAll visit ((items.zipIdx position).map fun item => (.index item.2, item.1)) := by
  induction items generalizing position with
  | nil => rfl
  | cons item rest ih => simp only [visitItems, List.zipIdx_cons, List.map_cons, visitAll, ih]

/-- A container is rebuilt by visiting its slots and refilling it; a scalar stays. -/
theorem rebuildSlots_eq {α : Type} (walker : Walker Build α) (node : Node) :
    walker.rebuildSlots visit node =
      if node.isContainer then do
        let outcomes ← visitAll visit node.slots
        let label ← walker.label
        return node.refill label outcomes
      else pure node := by
  cases node with
  | obj label fields =>
      simp only [rebuildSlots, visitFields_eq, bind_map_left, Node.isContainer, if_true]
      rfl
  | arr label items =>
      simp only [rebuildSlots, visitItems_eq, Node.isContainer, if_true]
      rfl
  | null => rfl
  | bool value => rfl
  | num value => rfl
  | str value => rfl

/-- What a rebuild that succeeds has done. -/
theorem rebuildSlots_ok {α : Type} {walker : Walker Build α} {node rebuilt : Node}
    {label after : Label} (hnode : node.isContainer = true)
    (h : (walker.rebuildSlots visit node).run label = .ok (rebuilt, after)) :
    ∃ outcomes between new, (visitAll visit node.slots).run label = .ok (outcomes, between) ∧
      walker.label.run between = .ok (new, after) ∧ rebuilt = node.refill new outcomes := by
  rw [rebuildSlots_eq, if_pos hnode] at h
  obtain ⟨outcomes, between, hvisits, h⟩ := run_bind_ok.mp h
  obtain ⟨new, ending, hlabel, h⟩ := run_bind_ok.mp h
  cases h
  exact ⟨outcomes, between, new, hvisits, hlabel, rfl⟩

/-! ### Single visits -/

/-- A slot is visited from `at` on, in a loop over `slots` that starts at `label`. -/
def VisitedAt (visit : Seg → Node → Build (Option Node)) (slots : List (Seg × Node))
    (label : Label) (slot : Seg × Node) (start : Label) : Prop :=
  ∃ before after outcomes, slots = before ++ slot :: after ∧
    (visitAll visit before).run label = .ok (outcomes, start)

theorem VisitedAt.head {slot : Seg × Node} {rest : List (Seg × Node)} {label : Label} :
    VisitedAt visit (slot :: rest) label slot label :=
  ⟨[], rest, [], rfl, rfl⟩

theorem VisitedAt.cons {seg : Seg} {child : Node} {rest : List (Seg × Node)} {slot : Seg × Node}
    {outcome : Option Node} {label between start : Label}
    (hfirst : (visit seg child).run label = .ok (outcome, between))
    (h : VisitedAt visit rest between slot start) :
    VisitedAt visit ((seg, child) :: rest) label slot start := by
  obtain ⟨before, after, outcomes, rfl, hbefore⟩ := h
  refine ⟨(seg, child) :: before, after, outcome :: outcomes, rfl, ?_⟩
  rw [visitAll]
  exact run_bind_ok.mpr ⟨outcome, between, hfirst, run_bind_ok.mpr ⟨outcomes, start, hbefore, rfl⟩⟩

theorem visitAll_append (first second : List (Seg × Node)) :
    visitAll visit (first ++ second) = do
      let outcomes ← visitAll visit first
      let others ← visitAll visit second
      return outcomes ++ others := by
  induction first with
  | nil => simp [visitAll]
  | cons slot rest ih =>
      obtain ⟨seg, child⟩ := slot
      simp [visitAll, ih]

/-- A loop that succeeds has visited every slot, each from the label it is visited at. -/
theorem forall₂_visitedAt {slots : List (Seg × Node)} {outcomes : List (Option Node)}
    {label ending : Label} (h : (visitAll visit slots).run label = .ok (outcomes, ending)) :
    List.Forall₂ (fun slot outcome => ∃ start after, VisitedAt visit slots label slot start ∧
      (visit slot.1 slot.2).run start = .ok (outcome, after)) slots outcomes := by
  -- The slots already visited are carried along, since they fix the label of the next visit.
  have key : ∀ (rest before : List (Seg × Node)) (done outcomes : List (Option Node))
      (start ending : Label), slots = before ++ rest →
      (visitAll visit before).run label = .ok (done, start) →
      (visitAll visit rest).run start = .ok (outcomes, ending) →
      List.Forall₂ (fun slot outcome => ∃ start after, VisitedAt visit slots label slot start ∧
        (visit slot.1 slot.2).run start = .ok (outcome, after)) rest outcomes := by
    intro rest
    induction rest with
    | nil =>
        intro before done outcomes start ending _ _ hrest
        cases hrest
        exact List.Forall₂.nil
    | cons slot rest ih =>
        intro before done outcomes start ending hslots hbefore hrest
        obtain ⟨seg, child⟩ := slot
        rw [visitAll] at hrest
        obtain ⟨outcome, between, hvisit, hrest⟩ := run_bind_ok.mp hrest
        obtain ⟨others, last, hothers, hrest⟩ := run_bind_ok.mp hrest
        cases hrest
        refine List.Forall₂.cons ⟨start, between, ⟨before, rest, done, hslots, hbefore⟩, hvisit⟩ ?_
        refine ih (before ++ [(seg, child)]) (done ++ [outcome]) _ between _ (by simp [hslots])
          ?_ hothers
        rw [visitAll_append]
        refine run_bind_ok.mpr ⟨done, start, hbefore, ?_⟩
        simp only [visitAll, bind_assoc, pure_bind]
        exact run_bind_ok.mpr ⟨outcome, between, hvisit, rfl⟩
  exact key slots [] [] outcomes label ending rfl rfl h

/-- A slot that is visited in a loop that succeeds has been visited with success. -/
theorem visit_of_visitedAt {slots : List (Seg × Node)} {outcomes : List (Option Node)}
    {label start ending : Label} {slot : Seg × Node}
    (h : (visitAll visit slots).run label = .ok (outcomes, ending))
    (hslot : VisitedAt visit slots label slot start) :
    ∃ outcome after, (visit slot.1 slot.2).run start = .ok (outcome, after) ∧
      (slot, outcome) ∈ slots.zip outcomes := by
  obtain ⟨before, rest, done, rfl, hbefore⟩ := hslot
  rw [visitAll_append] at h
  obtain ⟨first, between, hfirst, h⟩ := run_bind_ok.mp h
  obtain ⟨second, last, hsecond, h⟩ := run_bind_ok.mp h
  cases h
  rw [hbefore] at hfirst
  cases hfirst
  have hlength : before.length = done.length := (forall₂_visitedAt hbefore).length_eq
  obtain ⟨seg, child⟩ := slot
  rw [visitAll] at hsecond
  obtain ⟨outcome, after, hvisit, hsecond⟩ := run_bind_ok.mp hsecond
  obtain ⟨others, _, _, hsecond⟩ := run_bind_ok.mp hsecond
  cases hsecond
  refine ⟨outcome, after, hvisit, ?_⟩
  rw [List.zip_append hlength]
  simp

theorem getElem?_of_forall₂ {β γ : Type} {R : β → γ → Prop} {left : List β} {right : List γ}
    (h : List.Forall₂ R left right) {position : Nat} {item : β}
    (hitem : left[position]? = some item) :
    ∃ other, right[position]? = some other ∧ R item other := by
  induction h generalizing position with
  | nil => simp at hitem
  | @cons first other rest others hfirst hrest ih =>
      cases position with
      | zero =>
          cases hitem
          exact ⟨other, rfl, hfirst⟩
      | succ position => exact ih hitem

theorem rises_visitAll (h : ∀ seg child, Rises (visit seg child)) (slots : List (Seg × Node)) :
    Rises (visitAll visit slots) := by
  induction slots with
  | nil => exact rises_pure []
  | cons slot rest ih =>
      obtain ⟨seg, child⟩ := slot
      exact rises_bind (h seg child) fun outcome => rises_bind ih fun outcomes => rises_pure _

theorem VisitedAt.mem {slots : List (Seg × Node)} {label start : Label} {slot : Seg × Node}
    (h : VisitedAt visit slots label slot start) : slot ∈ slots := by
  obtain ⟨before, after, _, rfl, _⟩ := h
  simp

end Walker

namespace Node

/-! ### The fields that are kept -/

variable {fields : List (String × Node)} {outcomes : List (Option Node)}

theorem keys_keepFields_sublist (fields : List (String × Node)) (outcomes : List (Option Node)) :
    (Table.keys (keepFields fields outcomes)).Sublist (Table.keys fields) := by
  induction fields generalizing outcomes with
  | nil => cases outcomes <;> exact List.Sublist.slnil
  | cons field rest ih =>
      match outcomes with
      | [] => exact List.nil_sublist _
      | none :: outcomes => exact (ih outcomes).cons _
      | some value :: outcomes => exact (ih outcomes).cons_cons _

/-- A field that is kept comes from the slot of its name. -/
theorem mem_keepFields {P : String × Node → Option Node → Prop} {name : String} {value : Node}
    (h : List.Forall₂ P fields outcomes) (hmem : (name, value) ∈ keepFields fields outcomes) :
    ∃ child, (name, child) ∈ fields ∧ P (name, child) (some value) := by
  induction h with
  | nil => cases hmem
  | @cons field outcome rest outcomes hfirst hrest ih =>
      cases outcome with
      | none =>
          obtain ⟨child, hchild, hP⟩ := ih hmem
          exact ⟨child, List.mem_cons_of_mem _ hchild, hP⟩
      | some kept =>
          rcases List.mem_cons.mp hmem with heq | hlater
          · cases heq
            exact ⟨field.2, List.mem_cons_self, hfirst⟩
          · obtain ⟨child, hchild, hP⟩ := ih hlater
            exact ⟨child, List.mem_cons_of_mem _ hchild, hP⟩

theorem mem_keepFields_of_mem_zip {name : String} {child value : Node}
    (h : ((name, child), some value) ∈ fields.zip outcomes) :
    (name, value) ∈ keepFields fields outcomes := by
  induction fields generalizing outcomes with
  | nil => simp at h
  | cons field rest ih =>
      match outcomes with
      | [] => simp at h
      | none :: outcomes =>
          rcases List.mem_cons.mp h with heq | hlater
          · cases heq
          · exact ih hlater
      | some kept :: outcomes =>
          rcases List.mem_cons.mp h with heq | hlater
          · cases heq
            exact List.mem_cons_self
          · exact List.mem_cons_of_mem _ (ih hlater)

/-- A look-up after the rebuild sees what became of the slot that was looked up before. -/
theorem get?_keepFields {P : String × Node → Option Node → Prop} {name : String} {child : Node}
    (h : List.Forall₂ P fields outcomes) (hget : Table.get? fields name = some child) :
    ∃ outcome, P (name, child) outcome ∧
      ∀ value, outcome = some value →
        Table.get? (keepFields fields outcomes) name = some value := by
  induction h with
  | nil => cases hget
  | @cons field outcome rest outcomes hfirst hrest ih =>
      obtain ⟨key, here⟩ := field
      rw [Table.get?_cons] at hget
      by_cases hkey : key = name
      · rw [if_pos hkey] at hget
        cases hget
        subst hkey
        refine ⟨outcome, hfirst, ?_⟩
        rintro value rfl
        rw [keepFields, Table.get?_cons, if_pos rfl]
      · rw [if_neg hkey] at hget
        obtain ⟨later, hP, hvalue⟩ := ih hget
        refine ⟨later, hP, fun value hlater => ?_⟩
        cases outcome with
        | none => exact hvalue value hlater
        | some kept =>
            rw [keepFields, Table.get?_cons, if_neg hkey]
            exact hvalue value hlater

end Node

end Reducer
