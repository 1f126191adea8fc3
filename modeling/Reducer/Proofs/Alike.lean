/-
Trees that differ in the choice of labels only.

Two pieces of work that do the same thing at different times draw different labels for
it.  What they make is still alike: there is a correspondence of labels under which
one tree becomes the other.  `Alike R` is that, for a correspondence `R` given.

A correspondence must tell labels apart, or two nodes could be the same in one tree
and not in the other, and it leaves the labels alone that were there before either
piece of work began; `Matches` says so.  `Pairing` adds that it only speaks of labels
already drawn on either side, which leaves room for the next two to correspond.
-/
import Mathlib.Data.List.Forall2
import Reducer.Proofs.Draft
import Reducer.Proofs.Node

namespace Reducer

variable {R S : Label → Label → Prop}

namespace Node

/-! ### Alike trees -/

mutual

/-- The same tree under a correspondence of labels. -/
def Alike (R : Label → Label → Prop) : Node → Node → Prop
  | arr label items, arr other others => R label other ∧ AlikeItems R items others
  | obj label fields, obj other others => R label other ∧ AlikeFields R fields others
  | null, null => True
  | bool value, bool other => value = other
  | num value, num other => value = other
  | str value, str other => value = other
  | _, _ => False
termination_by structural node => node

/-- As many items, alike one by one. -/
def AlikeItems (R : Label → Label → Prop) : List Node → List Node → Prop
  | [], [] => True
  | item :: rest, other :: others => Alike R item other ∧ AlikeItems R rest others
  | _, _ => False
termination_by structural items => items

/-- The same keys in the same order, with alike values. -/
def AlikeFields (R : Label → Label → Prop) : List (String × Node) → List (String × Node) → Prop
  | [], [] => True
  | (name, value) :: rest, (key, other) :: others =>
      (name = key ∧ Alike R value other) ∧ AlikeFields R rest others
  | _, _ => False
termination_by structural fields => fields

end

/-- Alike fields: one key, and alike values. -/
def AlikeField (R : Label → Label → Prop) (field other : String × Node) : Prop :=
  field.1 = other.1 ∧ Alike R field.2 other.2

theorem alikeItems_iff {items others : List Node} :
    AlikeItems R items others ↔ List.Forall₂ (Alike R) items others := by
  induction items generalizing others with
  | nil => cases others <;> simp [AlikeItems]
  | cons item rest ih =>
      cases others with
      | nil => simp [AlikeItems]
      | cons other others => rw [AlikeItems, List.forall₂_cons, ih]

theorem alikeFields_iff {fields others : List (String × Node)} :
    AlikeFields R fields others ↔ List.Forall₂ (AlikeField R) fields others := by
  induction fields generalizing others with
  | nil => cases others <;> simp [AlikeFields]
  | cons field rest ih =>
      cases others with
      | nil => simp [AlikeFields]
      | cons other others => rw [AlikeFields, List.forall₂_cons, ih, AlikeField]

theorem alike_arr {label other : Label} {items others : List Node} :
    Alike R (.arr label items) (.arr other others) ↔
      R label other ∧ List.Forall₂ (Alike R) items others := by
  rw [Alike, alikeItems_iff]

theorem alike_obj {label other : Label} {fields others : List (String × Node)} :
    Alike R (.obj label fields) (.obj other others) ↔
      R label other ∧ List.Forall₂ (AlikeField R) fields others := by
  rw [Alike, alikeFields_iff]

/-- What is alike is a scalar and the same scalar, or two arrays, or two objects. -/
theorem alike_cases {node other : Node} (h : Alike R node other) :
    (node.isContainer = false ∧ other = node) ∨
    (∃ label items made others, node = .arr label items ∧ other = .arr made others ∧
      R label made ∧ List.Forall₂ (Alike R) items others) ∨
    ∃ label fields made others, node = .obj label fields ∧ other = .obj made others ∧
      R label made ∧ List.Forall₂ (AlikeField R) fields others := by
  cases node with
  | arr label items =>
      cases other with
      | arr made others =>
          exact Or.inr (Or.inl ⟨label, items, made, others, rfl, rfl, alike_arr.mp h⟩)
      | _ => cases h
  | obj label fields =>
      cases other with
      | obj made others =>
          exact Or.inr (Or.inr ⟨label, fields, made, others, rfl, rfl, alike_obj.mp h⟩)
      | _ => cases h
  | null =>
      cases other with
      | null => exact Or.inl ⟨rfl, rfl⟩
      | _ => cases h
  | bool value =>
      cases other with
      | bool made => exact Or.inl ⟨rfl, congrArg bool (Eq.symm h)⟩
      | _ => cases h
  | num value =>
      cases other with
      | num made => exact Or.inl ⟨rfl, congrArg num (Eq.symm h)⟩
      | _ => cases h
  | str value =>
      cases other with
      | str made => exact Or.inl ⟨rfl, congrArg str (Eq.symm h)⟩
      | _ => cases h

theorem alike_scalar {node : Node} (h : node.isContainer = false) : Alike R node node := by
  cases node <;> trivial

/-- Elements of related lists are related however the relation is read, if their pairs are. -/
theorem forall₂_imp_mem {β γ : Type} {P Q : β → γ → Prop} {left : List β} {right : List γ}
    (h : List.Forall₂ P left right) (himp : ∀ a ∈ left, ∀ b ∈ right, P a b → Q a b) :
    List.Forall₂ Q left right := by
  induction h with
  | nil => exact .nil
  | @cons a b left right hfirst hrest ih =>
      refine .cons (himp a List.mem_cons_self b List.mem_cons_self hfirst) (ih ?_)
      exact fun c hc d hd => himp c (List.mem_cons_of_mem _ hc) d (List.mem_cons_of_mem _ hd)

/-- Induction over alike trees: containers have the property once their children have it. -/
@[elab_as_elim]
theorem alikeInduction {motive : ∀ node other, Alike R node other → Prop}
    (scalar : ∀ node h, node.isContainer = false → motive node node h)
    (arr : ∀ label made items others h, R label made →
      List.Forall₂ (fun item other => ∃ h, motive item other h) items others →
      motive (.arr label items) (.arr made others) h)
    (obj : ∀ label made fields others h, R label made →
      List.Forall₂ (fun field other => field.1 = other.1 ∧ ∃ h, motive field.2 other.2 h)
        fields others →
      motive (.obj label fields) (.obj made others) h)
    {node other : Node} (h : Alike R node other) : motive node other h := by
  induction node using treeInduction generalizing other with
  | scalar node hnode =>
      rcases alike_cases h with ⟨-, rfl⟩ | ⟨_, _, _, _, rfl, -⟩ | ⟨_, _, _, _, rfl, -⟩
      · exact scalar _ h hnode
      · cases hnode
      · cases hnode
  | arr label items ih =>
      rcases alike_cases h with ⟨hnode, -⟩ | ⟨_, _, made, others, heq, rfl, hlabel, hitems⟩ |
        ⟨_, _, _, _, heq, -⟩
      · cases hnode
      · cases heq
        refine arr _ _ _ _ h hlabel (forall₂_imp_mem hitems ?_)
        exact fun item hitem other _ halike => ⟨halike, ih item hitem halike⟩
      · cases heq
  | obj label fields ih =>
      rcases alike_cases h with ⟨hnode, -⟩ | ⟨_, _, _, _, heq, -⟩ |
        ⟨_, _, made, others, heq, rfl, hlabel, hfields⟩
      · cases hnode
      · cases heq
      · cases heq
        refine obj _ _ _ _ h hlabel (forall₂_imp_mem hfields ?_)
        exact fun field hfield other _ halike => ⟨halike.1, halike.2, ih field hfield halike.2⟩

/-! ### What alike trees share -/

theorem mem_labels_arr {label a : Label} {items : List Node} {item : Node} (hitem : item ∈ items)
    (h : a ∈ item.labels) : a ∈ (arr label items).labels := by
  rw [labels, labelsOfItems_eq]
  exact List.mem_cons_of_mem _ (List.mem_flatMap.mpr ⟨item, hitem, h⟩)

theorem mem_labels_obj {label a : Label} {fields : List (String × Node)} {field : String × Node}
    (hfield : field ∈ fields) (h : a ∈ field.2.labels) : a ∈ (obj label fields).labels := by
  rw [labels, labelsOfFields_eq]
  exact List.mem_cons_of_mem _ (List.mem_flatMap.mpr ⟨field, hfield, h⟩)

/-- A correspondence may be changed where it does not speak of the trees' labels. -/
theorem Alike.mono_on {node other : Node} (h : Alike R node other)
    (hmore : ∀ a ∈ node.labels, ∀ b ∈ other.labels, R a b → S a b) : Alike S node other := by
  induction h using alikeInduction with
  | scalar node _ hnode => exact alike_scalar hnode
  | arr label made items others _ hlabel hitems =>
      refine alike_arr.mpr ⟨hmore _ List.mem_cons_self _ List.mem_cons_self hlabel, ?_⟩
      refine forall₂_imp_mem hitems fun item hitem other hother ih => ih.snd ?_
      exact fun a ha b hb => hmore a (mem_labels_arr hitem ha) b (mem_labels_arr hother hb)
  | obj label made fields others _ hlabel hfields =>
      refine alike_obj.mpr ⟨hmore _ List.mem_cons_self _ List.mem_cons_self hlabel, ?_⟩
      refine forall₂_imp_mem hfields fun field hfield other hother ih => ⟨ih.1, ih.2.snd ?_⟩
      exact fun a ha b hb => hmore a (mem_labels_obj hfield ha) b (mem_labels_obj hother hb)

theorem Alike.mono {node other : Node} (h : Alike R node other) (hmore : Subrelation R S) :
    Alike S node other :=
  h.mono_on fun _ _ _ _ hlabel => hmore hlabel

/-- A tree is alike to itself where its labels correspond to themselves. -/
theorem alike_self {node : Node} (h : ∀ a ∈ node.labels, R a a) : Alike R node node := by
  induction node using treeInduction with
  | scalar node hnode => exact alike_scalar hnode
  | arr label items ih =>
      refine alike_arr.mpr ⟨h _ List.mem_cons_self, List.forall₂_same.mpr fun item hitem => ?_⟩
      exact ih item hitem fun a ha => h a (mem_labels_arr hitem ha)
  | obj label fields ih =>
      refine alike_obj.mpr ⟨h _ List.mem_cons_self, List.forall₂_same.mpr fun field hfield => ?_⟩
      exact ⟨rfl, ih field hfield fun a ha => h a (mem_labels_obj hfield ha)⟩

/-- The labels of alike trees correspond, one by one. -/
theorem Alike.labels {node other : Node} (h : Alike R node other) :
    List.Forall₂ R node.labels other.labels := by
  induction h using alikeInduction with
  | scalar node _ hnode =>
      cases node with
      | arr label items => cases hnode
      | obj label fields => cases hnode
      | _ => exact .nil
  | arr label made items others _ hlabel hitems =>
      simp only [Node.labels, labelsOfItems_eq]
      exact .cons hlabel (List.rel_flatMap hitems fun _ _ ih => ih.snd)
  | obj label made fields others _ hlabel hfields =>
      simp only [Node.labels, labelsOfFields_eq]
      exact .cons hlabel (List.rel_flatMap hfields fun _ _ ih => ih.2.snd)

theorem bounded_of_forall₂ {left right : List Label} {next later : Label}
    (h : List.Forall₂ R left right) (hbound : ∀ {a b}, R a b → a < next ∧ b < later) :
    (∀ a ∈ left, a < next) ∧ ∀ b ∈ right, b < later := by
  induction h with
  | nil => simp
  | cons hfirst _ ih =>
      obtain ⟨hleft, hright⟩ := hbound hfirst
      exact ⟨List.forall_mem_cons.mpr ⟨hleft, ih.1⟩, List.forall_mem_cons.mpr ⟨hright, ih.2⟩⟩

theorem Alike.before {node other : Node} {next later : Label} (h : Alike R node other)
    (hbound : ∀ {a b}, R a b → a < next ∧ b < later) : node.Before next ∧ other.Before later :=
  bounded_of_forall₂ h.labels hbound

theorem itemsToJson_eq (items : List Node) : itemsToJson items = items.map toJson := by
  induction items with
  | nil => rfl
  | cons item rest ih => rw [itemsToJson, List.map_cons, ih]

theorem fieldsToJson_eq (fields : List (String × Node)) :
    fieldsToJson fields = fields.map fun field => (field.1, field.2.toJson) := by
  induction fields with
  | nil => rfl
  | cons field rest ih => rw [fieldsToJson, List.map_cons, ih]

theorem toJson_obj (label : Label) (fields : List (String × Node)) :
    (obj label fields).toJson = .obj (Table.mapValues toJson fields) := by
  rw [toJson, fieldsToJson_eq]
  rfl

theorem map_eq_of_forall₂ {β γ δ : Type} {P : β → γ → Prop} {f : β → δ} {g : γ → δ}
    {left : List β} {right : List γ} (h : List.Forall₂ P left right)
    (heq : ∀ {a b}, P a b → f a = g b) : left.map f = right.map g := by
  induction h with
  | nil => rfl
  | cons hfirst _ ih => rw [List.map_cons, List.map_cons, heq hfirst, ih]

/-- Alike trees have the same content. -/
theorem Alike.toJson_eq {node other : Node} (h : Alike R node other) :
    node.toJson = other.toJson := by
  induction h using alikeInduction with
  | scalar node => rfl
  | arr label made items others _ _ hitems =>
      rw [toJson, toJson, itemsToJson_eq, itemsToJson_eq]
      exact congrArg Json.arr (map_eq_of_forall₂ hitems Exists.snd)
  | obj label made fields others _ _ hfields =>
      rw [toJson, toJson, fieldsToJson_eq, fieldsToJson_eq]
      refine congrArg Json.obj (map_eq_of_forall₂ hfields fun {field other} ih => ?_)
      rw [ih.1, ih.2.snd]

theorem forall_mem_of_forall₂ {β γ : Type} {P : β → γ → Prop} {S : β → Prop} {T : γ → Prop}
    {left : List β} {right : List γ} (h : List.Forall₂ P left right)
    (himp : ∀ {a b}, P a b → S a → T b) (hleft : ∀ a ∈ left, S a) : ∀ b ∈ right, T b := by
  induction h with
  | nil => simp
  | cons hfirst _ ih =>
      obtain ⟨hhere, hrest⟩ := List.forall_mem_cons.mp hleft
      exact List.forall_mem_cons.mpr ⟨himp hfirst hhere, ih hrest⟩

/-- Alike trees have the same keys at every object. -/
theorem Alike.distinct {node other : Node} (h : Alike R node other) (hnode : node.Distinct) :
    other.Distinct := by
  induction h using alikeInduction with
  | scalar => exact hnode
  | arr label made items others _ _ hitems =>
      rw [distinct_arr] at hnode ⊢
      exact forall_mem_of_forall₂ hitems (fun ih => ih.snd) hnode
  | obj label made fields others _ _ hfields =>
      rw [distinct_obj] at hnode ⊢
      have hkeys : Table.keys fields = Table.keys others := map_eq_of_forall₂ hfields And.left
      refine ⟨?_, forall_mem_of_forall₂ hfields (fun ih => ih.2.snd) hnode.2⟩
      rw [Table.Distinct, ← hkeys]
      exact hnode.1

theorem alike_get? {fields others : List (String × Node)}
    (h : List.Forall₂ (AlikeField R) fields others) (name : String) :
    Option.Rel (Alike R) (Table.get? fields name) (Table.get? others name) := by
  induction h with
  | nil => exact .none
  | @cons field other rest others hfirst _ ih =>
      obtain ⟨key, value⟩ := field
      obtain ⟨key, made⟩ := other
      obtain ⟨rfl, hvalue⟩ := hfirst
      rw [Table.get?_cons, Table.get?_cons]
      split
      · exact .some hvalue
      · exact ih

theorem rel_getElem? {β γ : Type} {P : β → γ → Prop} {left : List β} {right : List γ}
    (h : List.Forall₂ P left right) (position : Nat) :
    Option.Rel P left[position]? right[position]? := by
  induction h generalizing position with
  | nil => exact .none
  | cons hfirst _ ih =>
      cases position with
      | zero => exact .some hfirst
      | succ position => exact ih position

theorem Alike.child? {node other : Node} (h : Alike R node other) (seg : Seg) :
    Option.Rel (Alike R) (node.child? seg) (other.child? seg) := by
  rcases alike_cases h with ⟨hnode, rfl⟩ | ⟨_, _, _, _, rfl, rfl, -, hitems⟩ |
    ⟨_, _, _, _, rfl, rfl, -, hfields⟩
  · cases other with
    | arr label items => cases hnode
    | obj label fields => cases hnode
    | _ => exact .none
  · cases seg with
    | key name => exact .none
    | index position => exact rel_getElem? hitems position
  · cases seg with
    | key name => exact alike_get? hfields name
    | index position => exact .none

theorem Alike.at? {path : Path} :
    ∀ {node other : Node}, Alike R node other →
      Option.Rel (Alike R) (node.at? path) (other.at? path) := by
  induction path with
  | nil => intro node other h; exact .some h
  | cons seg rest ih =>
      intro node other h
      have hchild := h.child? seg
      rw [Node.at?, Node.at?]
      generalize node.child? seg = child at hchild ⊢
      generalize other.child? seg = made at hchild ⊢
      cases hchild with
      | none => exact .none
      | some hchild => exact ih hchild

end Node

/-! ### Correspondences -/

/-- Labels are told apart on both sides, and those below `fixed` correspond to themselves. -/
structure Matches (fixed : Label) (R : Label → Label → Prop) : Prop where
  fixes : ∀ label < fixed, R label label
  left : ∀ {a b c}, R a b → R a c → b = c
  right : ∀ {a b c}, R a c → R b c → a = b

theorem Matches.mono {fixed later : Label} (h : Matches later R) (hle : fixed ≤ later) :
    Matches fixed R :=
  ⟨fun label hlabel => h.fixes label (Nat.lt_of_lt_of_le hlabel hle), h.left, h.right⟩

/-- A correspondence of labels drawn before `next` with labels drawn before `later`. -/
structure Pairing (fixed next later : Label) (R : Label → Label → Prop) : Prop
    extends Matches fixed R where
  bound : ∀ {a b}, R a b → a < next ∧ b < later

/-- The correspondence in which two more labels correspond. -/
def Paired (R : Label → Label → Prop) (next later : Label) (a b : Label) : Prop :=
  R a b ∨ a = next ∧ b = later

theorem Pairing.paired {fixed next later : Label} (h : Pairing fixed next later R) :
    Pairing fixed (next + 1) (later + 1) (Paired R next later) where
  fixes label hlabel := Or.inl (h.fixes label hlabel)
  left := by
    rintro a b c (hb | ⟨ha, rfl⟩) (hc | ⟨ha', rfl⟩)
    · exact h.left hb hc
    · exact absurd (ha' ▸ (h.bound hb).1) (Nat.lt_irrefl _)
    · exact absurd (ha ▸ (h.bound hc).1) (Nat.lt_irrefl _)
    · rfl
  right := by
    rintro a b c (ha | ⟨rfl, hc⟩) (hb | ⟨rfl, hc'⟩)
    · exact h.right ha hb
    · exact absurd (hc' ▸ (h.bound ha).2) (Nat.lt_irrefl _)
    · exact absurd (hc ▸ (h.bound hb).2) (Nat.lt_irrefl _)
    · rfl
  bound := by
    rintro a b (hab | ⟨rfl, rfl⟩)
    · obtain ⟨ha, hb⟩ := h.bound hab
      exact ⟨Nat.lt_succ_of_lt ha, Nat.lt_succ_of_lt hb⟩
    · exact ⟨Nat.lt_succ_self _, Nat.lt_succ_self _⟩

theorem paired_of {next later : Label} : Subrelation R (Paired R next later) :=
  fun h => Or.inl h

/-- What two runs drew for the same work corresponds, along with all that did before. -/
def Extends (fixed : Label) (R : Label → Label → Prop) (next later : Label)
    (result : (Label → Label → Prop) → Prop) : Prop :=
  ∃ S, Pairing fixed next later S ∧ Subrelation R S ∧ result S

/-- Two trees alike in all but the labels drawn since `fixed`. -/
def Node.Like (fixed : Label) (node other : Node) : Prop :=
  ∃ R, Matches fixed R ∧ node.Alike R other

/-- Whatever two alike trees are, their labels can be drawn before any that are high enough. -/
theorem Node.Like.pairing {fixed next later : Label} {node other : Node}
    (h : node.Like fixed other) (hnode : node.Before next) (hother : other.Before later)
    (hnext : fixed ≤ next) (hlater : fixed ≤ later) :
    ∃ R, Pairing fixed next later R ∧ node.Alike R other := by
  obtain ⟨R, hR, halike⟩ := h
  -- Only the labels below `fixed` and those that occur are kept.
  refine ⟨fun a b => R a b ∧ (a < fixed ∨ a ∈ node.labels ∧ b ∈ other.labels),
    ⟨⟨fun label hlabel => ⟨hR.fixes label hlabel, Or.inl hlabel⟩, ?_, ?_⟩, ?_⟩,
    halike.mono_on fun a ha b hb hab => ⟨hab, Or.inr ⟨ha, hb⟩⟩⟩
  · exact fun hb hc => hR.left hb.1 hc.1
  · exact fun ha hb => hR.right ha.1 hb.1
  · rintro a b ⟨hab, hlow | ⟨ha, hb⟩⟩
    · obtain rfl := hR.left hab (hR.fixes a hlow)
      exact ⟨Nat.lt_of_lt_of_le hlow hnext, Nat.lt_of_lt_of_le hlow hlater⟩
    · exact ⟨hnode a ha, hother b hb⟩

namespace Draft

/-! ### Alike drafts -/

mutual

/-- The same draft under a correspondence of labels. -/
def Alike (R : Label → Label → Prop) : Draft → Draft → Prop
  | keep node, keep other => node.Alike R other
  | arr items, arr others => AlikeItems R items others
  | obj fields, obj others => AlikeFields R fields others
  | _, _ => False
termination_by structural draft => draft

/-- As many items, alike one by one. -/
def AlikeItems (R : Label → Label → Prop) : List Draft → List Draft → Prop
  | [], [] => True
  | item :: rest, other :: others => Alike R item other ∧ AlikeItems R rest others
  | _, _ => False
termination_by structural items => items

/-- The same keys in the same order, with alike drafts. -/
def AlikeFields (R : Label → Label → Prop) : List (String × Draft) → List (String × Draft) → Prop
  | [], [] => True
  | (name, value) :: rest, (key, other) :: others =>
      (name = key ∧ Alike R value other) ∧ AlikeFields R rest others
  | _, _ => False
termination_by structural fields => fields

end

theorem alikeItems_iff {items others : List Draft} :
    AlikeItems R items others ↔ List.Forall₂ (Alike R) items others := by
  induction items generalizing others with
  | nil => cases others <;> simp [AlikeItems]
  | cons item rest ih =>
      cases others with
      | nil => simp [AlikeItems]
      | cons other others => rw [AlikeItems, List.forall₂_cons, ih]

theorem alikeFields_iff {fields others : List (String × Draft)} :
    AlikeFields R fields others ↔
      List.Forall₂ (fun field other => field.1 = other.1 ∧ Alike R field.2 other.2)
        fields others := by
  induction fields generalizing others with
  | nil => cases others <;> simp [AlikeFields]
  | cons field rest ih =>
      cases others with
      | nil => simp [AlikeFields]
      | cons other others => rw [AlikeFields, List.forall₂_cons, ih]

theorem Alike.mono {draft other : Draft} (h : Alike R draft other) (hmore : Subrelation R S) :
    Alike S draft other := by
  induction draft using draftInduction generalizing other with
  | keep node =>
      cases other with
      | keep made => exact Node.Alike.mono h hmore
      | _ => cases h
  | arr items ih =>
      cases other with
      | arr others =>
          refine alikeItems_iff.mpr (Node.forall₂_imp_mem (alikeItems_iff.mp h) ?_)
          exact fun item hitem other _ halike => ih item hitem halike
      | _ => cases h
  | obj fields ih =>
      cases other with
      | obj others =>
          refine alikeFields_iff.mpr (Node.forall₂_imp_mem (alikeFields_iff.mp h) ?_)
          exact fun field hfield other _ halike => ⟨halike.1, ih field hfield halike.2⟩
      | _ => cases h

/-- A draft builds alike nodes from alike drafts, at any labels. -/
def BuildsAlike (fixed : Label) (draft : Draft) : Prop :=
  ∀ {other : Draft} {R : Label → Label → Prop} {next later : Label},
    Alike R draft other → Pairing fixed next later R →
    Extends fixed R (draft.build next).2 (other.build later).2
      fun S => (draft.build next).1.Alike S (other.build later).1

theorem alike_buildItems {fixed : Label} {items : List Draft}
    (hitems : ∀ item ∈ items, BuildsAlike fixed item) :
    ∀ {others : List Draft} {R : Label → Label → Prop} {next later : Label},
      List.Forall₂ (Alike R) items others → Pairing fixed next later R →
      Extends fixed R (buildItems items next).2 (buildItems others later).2
        fun S =>
          List.Forall₂ (Node.Alike S) (buildItems items next).1 (buildItems others later).1 := by
  induction items with
  | nil =>
      rintro _ R next later ⟨⟩ hR
      exact ⟨R, hR, id, .nil⟩
  | cons item rest ih =>
      intro others R next later hothers hR
      obtain ⟨other, others, hfirst, hrest, rfl⟩ := List.forall₂_cons_left_iff.mp hothers
      obtain ⟨hitem, hitems⟩ := List.forall_mem_cons.mp hitems
      obtain ⟨S, hS, hmore, hmade⟩ := hitem hfirst hR
      obtain ⟨T, hT, hmost, hothers⟩ := ih hitems (hrest.imp fun _ _ h => h.mono hmore) hS
      exact ⟨T, hT, fun h => hmost (hmore h), .cons (hmade.mono hmost) hothers⟩

theorem alike_buildFields {fixed : Label} {fields : List (String × Draft)}
    (hfields : ∀ field ∈ fields, BuildsAlike fixed field.2) :
    ∀ {others : List (String × Draft)} {R : Label → Label → Prop} {next later : Label},
      List.Forall₂ (fun field other => field.1 = other.1 ∧ Alike R field.2 other.2) fields others →
      Pairing fixed next later R →
      Extends fixed R (buildFields fields next).2 (buildFields others later).2
        fun S => List.Forall₂ (Node.AlikeField S) (buildFields fields next).1
          (buildFields others later).1 := by
  induction fields with
  | nil =>
      rintro _ R next later ⟨⟩ hR
      exact ⟨R, hR, id, .nil⟩
  | cons field rest ih =>
      intro others R next later hothers hR
      obtain ⟨other, others, ⟨hname, hfirst⟩, hrest, rfl⟩ := List.forall₂_cons_left_iff.mp hothers
      obtain ⟨hfield, hfields⟩ := List.forall_mem_cons.mp hfields
      obtain ⟨S, hS, hmore, hmade⟩ := hfield hfirst hR
      obtain ⟨T, hT, hmost, hothers⟩ :=
        ih hfields (hrest.imp fun _ _ h => ⟨h.1, h.2.mono hmore⟩) hS
      exact ⟨T, hT, fun h => hmost (hmore h), .cons ⟨hname, hmade.mono hmost⟩ hothers⟩

/-- **Alike drafts build alike nodes, whatever labels they are built with.** -/
theorem buildsAlike (fixed : Label) (draft : Draft) : BuildsAlike fixed draft := by
  induction draft using draftInduction with
  | keep node =>
      intro other R next later h hR
      cases other with
      | keep made => exact ⟨R, hR, id, h⟩
      | _ => cases h
  | arr items ih =>
      intro other R next later h hR
      cases other with
      | arr others =>
          obtain ⟨S, hS, hmore, hmade⟩ := alike_buildItems ih
            ((alikeItems_iff.mp h).imp fun _ _ h => h.mono paired_of) hR.paired
          refine ⟨S, hS, fun h => hmore (paired_of h), Node.alike_arr.mpr ⟨?_, hmade⟩⟩
          exact hmore (Or.inr ⟨rfl, rfl⟩)
      | _ => cases h
  | obj fields ih =>
      intro other R next later h hR
      cases other with
      | obj others =>
          obtain ⟨S, hS, hmore, hmade⟩ := alike_buildFields ih
            ((alikeFields_iff.mp h).imp fun _ _ h => ⟨h.1, h.2.mono paired_of⟩) hR.paired
          refine ⟨S, hS, fun h => hmore (paired_of h), Node.alike_obj.mpr ⟨?_, hmade⟩⟩
          exact hmore (Or.inr ⟨rfl, rfl⟩)
      | _ => cases h

end Draft

end Reducer
