/-
Work that depends on contents only.

Two trees of one content are alike under the correspondence that lets any label stand for
any other, and so everything known of alike trees is known of them.  A callback that reads
contents cannot tell such trees apart: it answers with drafts of one content.  An effect
with such a callback then fails on both, with one fault, or on neither, at whatever labels
it is run, and what it makes of them is of one content again.  Faults name places, kinds and
lengths, and on these the trees agree.

The same is said of what a slice leads to, and of the view, where predicates have to read
contents too.
-/
import Reducer.Proofs.Callback
import Reducer.Redirects

namespace Reducer

open Build

namespace Node

/-! ### One content -/

/-- Trees of one content: alike, whatever their labels. -/
abbrev Akin : Node → Node → Prop := Alike fun _ _ => True

theorem forall₂_of_map_eq {β γ δ : Type} {f : β → δ} {g : γ → δ} :
    ∀ {left : List β} {right : List γ}, left.map f = right.map g →
      List.Forall₂ (fun a b => f a = g b) left right
  | [], [], _ => .nil
  | [], _ :: _, h => by cases h
  | _ :: _, [], h => by cases h
  | _ :: _, _ :: _, h => .cons (List.cons.inj h).1 (forall₂_of_map_eq (List.cons.inj h).2)

theorem akin_of_toJson_eq {node other : Node} (h : node.toJson = other.toJson) :
    node.Akin other := by
  induction node using treeInduction generalizing other with
  | scalar node hnode =>
      cases node with
      | arr label items => cases hnode
      | obj label fields => cases hnode
      | _ => cases other <;> simp [toJson, Akin, Alike] at h ⊢ <;> exact h
  | arr label items ih =>
      cases other with
      | arr made others =>
          rw [toJson, toJson, Json.arr.injEq, itemsToJson_eq, itemsToJson_eq] at h
          refine alike_arr.mpr ⟨trivial, forall₂_imp_mem (forall₂_of_map_eq h) ?_⟩
          exact fun item hitem other _ hsame => ih item hitem hsame
      | _ => simp [toJson] at h
  | obj label fields ih =>
      cases other with
      | obj made others =>
          rw [toJson, toJson, Json.obj.injEq, fieldsToJson_eq, fieldsToJson_eq] at h
          refine alike_obj.mpr ⟨trivial, forall₂_imp_mem (forall₂_of_map_eq h) ?_⟩
          intro field hfield other _ hsame
          obtain ⟨hname, hvalue⟩ := Prod.mk.inj hsame
          exact ⟨hname, ih field hfield hvalue⟩
      | _ => simp [toJson] at h

theorem akin_refl (node : Node) : node.Akin node :=
  akin_of_toJson_eq rfl

theorem akin_symm {one two : Node} (h : one.Akin two) : two.Akin one :=
  akin_of_toJson_eq h.toJson_eq.symm

theorem akin_trans {one two three : Node} (h : one.Akin two) (hnext : two.Akin three) :
    one.Akin three :=
  akin_of_toJson_eq (h.toJson_eq.trans hnext.toJson_eq)

/-- Slots of one content: both empty, or with values of one content. -/
abbrev AkinSlot : Option Node → Option Node → Prop := Option.Rel Akin

theorem akinSlot_iff {current other : Option Node} :
    AkinSlot current other ↔ current.map toJson = other.map toJson := by
  constructor
  · intro h
    cases h with
    | none => rfl
    | some hakin => exact congrArg some hakin.toJson_eq
  · intro h
    cases current with
    | none =>
        cases other with
        | none => exact .none
        | some made => cases h
    | some value =>
        cases other with
        | none => cases h
        | some made => exact .some (akin_of_toJson_eq (Option.some.inj h))

theorem Alike.kind {R : Label → Label → Prop} {node other : Node} (h : node.Alike R other) :
    node.kind = other.kind := by
  rcases alike_cases h with ⟨-, rfl⟩ | ⟨_, _, _, _, rfl, rfl, -⟩ | ⟨_, _, _, _, rfl, rfl, -⟩
  · rfl
  · rfl
  · rfl

theorem Alike.isNull {R : Label → Label → Prop} {node other : Node} (h : node.Alike R other) :
    node.isNull = other.isNull :=
  isNull_eq_of_kind h.kind

theorem Alike.isContainer {R : Label → Label → Prop} {node other : Node}
    (h : node.Alike R other) : node.isContainer = other.isContainer :=
  isContainer_eq_of_kind h.kind

end Node

namespace Draft

theorem itemsToJson_build {items : List Draft}
    (h : ∀ item ∈ items, ∀ next, (item.build next).1.toJson = item.toJson) (next : Label) :
    Node.itemsToJson (buildItems items next).1 = itemsToJson items := by
  induction items generalizing next with
  | nil => rfl
  | cons item rest ih =>
      obtain ⟨hfirst, hrest⟩ := List.forall_mem_cons.mp h
      exact congrArg₂ List.cons (hfirst next) (ih hrest _)

theorem fieldsToJson_build {fields : List (String × Draft)}
    (h : ∀ field ∈ fields, ∀ next, (field.2.build next).1.toJson = field.2.toJson) (next : Label) :
    Node.fieldsToJson (buildFields fields next).1 = fieldsToJson fields := by
  induction fields generalizing next with
  | nil => rfl
  | cons field rest ih =>
      obtain ⟨hfirst, hrest⟩ := List.forall_mem_cons.mp h
      exact congrArg₂ List.cons (congrArg (Prod.mk _) (hfirst next)) (ih hrest _)

/-- **What a draft builds has the content of the draft.** -/
theorem toJson_build (draft : Draft) : ∀ next, (draft.build next).1.toJson = draft.toJson := by
  induction draft using draftInduction with
  | keep node => exact fun next => rfl
  | arr items ih => exact fun next => congrArg Json.arr (itemsToJson_build ih _)
  | obj fields ih => exact fun next => congrArg Json.obj (fieldsToJson_build ih _)

end Draft

/-! ### Making nodes -/

namespace Build

/-- Drafts of one content are built to nodes of one content, and so are containers of such nodes. -/
theorem agree_draft {draft other : Draft} (h : draft.toJson = other.toJson) :
    Agree Node.Akin (Build.draft draft) (Build.draft other) := by
  intro next later
  refine .ok (Node.akin_of_toJson_eq ?_)
  rw [Draft.toJson_build, Draft.toJson_build, h]

theorem agree_arr {items others : List Node} (h : List.Forall₂ Node.Akin items others) :
    Agree Node.Akin (arr items) (arr others) :=
  agree_fresh.bind fun _ => agree_pure (Node.alike_arr.mpr ⟨trivial, h⟩)

theorem agree_obj {fields others : Table Node}
    (h : List.Forall₂ (Node.AlikeField fun _ _ => True) fields others) :
    Agree Node.Akin (obj fields) (obj others) :=
  agree_fresh.bind fun _ => agree_pure (Node.alike_obj.mpr ⟨trivial, h⟩)

end Build

/-! ### Effects that read contents -/

/-- Arguments of one content give drafts of one content. -/
def Callback.ReadsContent (callback : Callback) : Prop :=
  ∀ action {view other value made : Node}, view.toJson = other.toJson →
    value.toJson = made.toJson →
    (callback action view value).toJson = (callback action other made).toJson

namespace Effect

/-- The effect's callback reads contents, and so does the position to insert at. -/
def ReadsContent : Effect → Prop
  | set callback | append callback | assign callback => Callback.ReadsContent callback
  | insert callback =>
      Callback.ReadsContent (fun action view value => (callback action view value).2) ∧
      ∀ action {view other value made : Node}, view.toJson = other.toJson →
        value.toJson = made.toJson →
        (callback action view value).1 = (callback action other made).1
  | delete => True

/-- **An effect that reads contents ends alike on values of one content.** -/
theorem agree_run {effect : Effect} (hreads : effect.ReadsContent) (action : Action)
    (path : Path) {view other : Node} (hview : view.Akin other) {current made : Option Node}
    (hcurrent : Node.AkinSlot current made) :
    Agree Node.AkinSlot (effect.run action view path current)
      (effect.run action other path made) := by
  have hvalue := alike_getD hcurrent
  have hdraft : ∀ {callback : Callback}, callback.ReadsContent →
      Agree Node.Akin (Build.draft (callback action view (current.getD .null)))
        (Build.draft (callback action other (made.getD .null))) :=
    fun hcallback => agree_draft (hcallback action hview.toJson_eq hvalue.toJson_eq)
  cases effect with
  | set callback =>
      rw [run_set, run_set]
      exact (hdraft hreads).map fun hbuilt => .some hbuilt
  | append callback =>
      rw [run_append, run_append]
      refine (hdraft hreads).bind fun {item built} hbuilt => ?_
      have hitems := alike_appendable? hvalue
      generalize appendable? (current.getD .null) = items at hitems ⊢
      generalize appendable? (made.getD .null) = others at hitems ⊢
      cases hitems with
      | none => exact agree_throw _
      | some hitems =>
          have hmore := List.rel_append hitems (.cons hbuilt .nil)
          exact (agree_arr hmore).map fun hmade => .some hmade
  | insert callback =>
      rw [run_insert, run_insert]
      refine (hdraft hreads.1).bind fun {item built} hbuilt => ?_
      have hindex := hreads.2 action hview.toJson_eq hvalue.toJson_eq
      have hkind := hvalue.kind
      have hitems := alike_items? hvalue
      rw [← hindex, ← hkind]
      generalize (current.getD .null).items? = items at hitems ⊢
      generalize (made.getD .null).items? = others at hitems ⊢
      cases hitems with
      | none => exact agree_throw _
      | some hitems =>
          dsimp only
          rw [hitems.length_eq]
          split
          · exact agree_throw _
          · have hmore := alike_insert hitems hbuilt (callback action view (current.getD .null)).1
            exact (agree_arr hmore).map fun hmade => .some hmade
  | assign callback =>
      rw [run_assign, run_assign]
      have hfields := alike_assignable? hvalue
      generalize assignable? (current.getD .null) = fields at hfields ⊢
      generalize assignable? (made.getD .null) = others at hfields ⊢
      cases hfields with
      | none => exact agree_throw _
      | some hfields =>
          refine (hdraft hreads).bind fun {patch built} hbuilt => ?_
          have hchanges := alike_assignable? hbuilt
          generalize assignable? patch = changes at hchanges ⊢
          generalize assignable? built = patches at hchanges ⊢
          cases hchanges with
          | none => exact agree_throw _
          | some hchanges =>
              exact (agree_obj (alike_merge hchanges hfields)).map fun hmade => .some hmade
  | delete => exact agree_pure .none

end Effect

/-! ### Slices and views that read contents -/

/-- Whether a child is meant depends on contents, and on the child's name. -/
def Predicate.ReadsContent (test : Predicate) : Prop :=
  ∀ action {root other value made : Node} (seg : Seg), root.toJson = other.toJson →
    value.toJson = made.toJson → test.holds action root value seg = test.holds action other made seg

/-- The part is a name, or a predicate that reads contents. -/
def Part.ReadsContent : Part → Prop
  | key _ | index _ => True
  | predicate test => test.ReadsContent

/-- Every predicate in the slice reads contents. -/
def Slice.ReadsContent (slice : Slice) : Prop :=
  ∀ part ∈ slice, part.ReadsContent

/-- Every predicate in the redirects reads contents. -/
def Redirects.ReadsContent (redirects : Redirects) : Prop :=
  ∀ entry ∈ redirects, Slice.ReadsContent entry.2

variable {action : Action} {root other : Node}

/-- What is found first in two lists that are tested alike. -/
theorem rel_find? {β γ : Type} {P : β → γ → Prop} {test : β → Bool} {check : γ → Bool}
    {left : List β} {right : List γ} (h : List.Forall₂ P left right)
    (htest : ∀ {a b}, P a b → test a = check b) :
    Option.Rel P (left.find? test) (right.find? check) := by
  induction h with
  | nil => exact .none
  | cons hfirst _ ih =>
      rw [List.find?_cons, List.find?_cons, htest hfirst]
      split
      · exact .some hfirst
      · exact ih

theorem forall₂_zipIdx {β γ : Type} {P : β → γ → Prop} {left : List β} {right : List γ}
    (h : List.Forall₂ P left right) (start : Nat) :
    List.Forall₂ (fun a b => P a.1 b.1 ∧ a.2 = b.2) (left.zipIdx start) (right.zipIdx start) := by
  induction h generalizing start with
  | nil => exact .nil
  | cons hfirst _ ih =>
      rw [List.zipIdx_cons, List.zipIdx_cons]
      exact .cons ⟨hfirst, rfl⟩ (ih (start + 1))

theorem Part.akin_firstChild? {holds check : Node → Seg → Bool} {node made : Node}
    (hholds : ∀ {value found : Node} seg, value.Akin found → holds value seg = check found seg)
    (h : node.Akin made) :
    Node.AkinSlot (firstChild? holds node) (firstChild? check made) := by
  rcases Node.alike_cases h with ⟨hnode, rfl⟩ | ⟨_, _, _, _, rfl, rfl, -, hitems⟩ |
    ⟨_, _, _, _, rfl, rfl, -, hfields⟩
  · cases made with
    | arr label items => cases hnode
    | obj label fields => cases hnode
    | _ => exact .none
  · refine rel_map (rel_find? (forall₂_zipIdx hitems 0) ?_) fun hpair => hpair.1
    intro item found hpair
    rw [hpair.2]
    exact hholds _ hpair.1
  · refine rel_map (rel_find? hfields ?_) fun hpair => hpair.2
    intro field found hpair
    rw [hpair.1]
    exact hholds _ hpair.2

theorem Part.akin_resolve {part : Part} (hreads : part.ReadsContent) (hroot : root.Akin other)
    {node made : Node} (h : node.Akin made) :
    Node.AkinSlot (part.resolve action root node) (part.resolve action other made) := by
  cases part with
  | predicate test =>
      refine akin_firstChild? (fun seg hvalue => ?_) h
      exact hreads action seg hroot.toJson_eq hvalue.toJson_eq
  | _ => exact h.child? _

theorem Slice.akin_resolveFrom (hroot : root.Akin other) {slice : Slice}
    (hreads : slice.ReadsContent) :
    ∀ {node made : Node}, node.Akin made →
      Node.AkinSlot (resolveFrom action root node slice) (resolveFrom action other made slice) := by
  induction slice with
  | nil => intro node made h; exact .some h
  | cons part rest ih =>
      intro node made h
      obtain ⟨hpart, hrest⟩ := List.forall_mem_cons.mp hreads
      exact rel_bind (Part.akin_resolve hpart hroot h) fun _ _ hfound => ih hrest hfound

namespace Redirects

theorem akin_shown {redirects : Redirects} (hreads : redirects.ReadsContent)
    (hroot : root.Akin other) (name : String) {value made : Node} (h : value.Akin made) :
    (redirects.shown action root name value).Akin (redirects.shown action other name made) := by
  unfold shown
  split
  · rename_i slice hget
    have hslice := hreads _ (Table.mem_of_get? hget)
    exact Effect.alike_getD (Slice.akin_resolveFrom hroot hslice hroot)
  · exact h

/-- **States of one content have views of one content.** -/
theorem agree_view {redirects : Option Redirects}
    (hreads : ∀ held, redirects = some held → held.ReadsContent) (action : Action)
    (hroot : root.Akin other) :
    Agree Node.Akin (view redirects action root) (view redirects action other) := by
  cases redirects with
  | none => exact agree_pure hroot
  | some redirects =>
      rcases Node.alike_cases hroot with ⟨hnode, rfl⟩ | ⟨_, _, _, _, rfl, rfl, -, -⟩ |
        ⟨_, fields, _, others, rfl, rfl, -, hfields⟩
      · cases other with
        | arr label items => cases hnode
        | obj label fields => cases hnode
        | _ => exact agree_pure hroot
      · exact agree_pure hroot
      · refine agree_obj (List.forall₂_map_left_iff.mpr (List.forall₂_map_right_iff.mpr ?_))
        refine hfields.imp fun field made hpair => ⟨hpair.1, ?_⟩
        rw [hpair.1]
        exact akin_shown (hreads redirects rfl) hroot made.1 hpair.2

end Redirects

end Reducer
