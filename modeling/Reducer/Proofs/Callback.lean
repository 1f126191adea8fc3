/-
Effects whose callbacks are lawful.

A callback computes on nodes, and the type of nodes lets it do two things that no
callback can: read the number of a label, and lay out an object with a key twice.
What it can do is compare two nodes for being the same.  `Callback.Lawful` says that:
arguments that differ in the choice of labels only give drafts that do, and distinct
keys stay distinct.  A callback may also keep nodes of its own; those are older than
the reduction, and their labels are left alone by every correspondence considered.

An effect whose callback is lawful does the same thing at any time, whatever labels
are next: it fails or not, and what it makes is alike.
-/
import Reducer.Proofs.Alike
import Reducer.Proofs.Keeping

namespace Reducer

open Build

variable {R : Label → Label → Prop}

/-- The callback sees which nodes are the same and no more of labels, and keeps keys distinct. -/
structure Callback.Lawful (fixed : Label) (callback : Callback) : Prop where
  /-- Alike arguments give alike drafts. -/
  alike : ∀ {R : Label → Label → Prop}, Matches fixed R → ∀ action {view other value made : Node},
    view.Alike R other → value.Alike R made →
    (callback action view value).Alike R (callback action other made)
  /-- Arguments with distinct keys give a draft with distinct keys. -/
  distinct : ∀ action {view value : Node}, view.Distinct → value.Distinct →
    (callback action view value).Distinct

theorem Callback.Lawful.mono {fixed later : Label} {callback : Callback}
    (h : callback.Lawful fixed) (hle : fixed ≤ later) : callback.Lawful later :=
  ⟨fun hR => h.alike (hR.mono hle), h.distinct⟩

namespace Effect

/-- The effect's callback is lawful; the position to insert at does not depend on labels either. -/
def Lawful (fixed : Label) : Effect → Prop
  | set callback | append callback | assign callback => Callback.Lawful fixed callback
  | insert callback =>
      Callback.Lawful fixed (fun action view value => (callback action view value).2) ∧
      ∀ {R : Label → Label → Prop}, Matches fixed R →
        ∀ action {view other value made : Node}, view.Alike R other → value.Alike R made →
        (callback action view value).1 = (callback action other made).1
  | delete => True

theorem Lawful.mono {fixed later : Label} {effect : Effect} (h : effect.Lawful fixed)
    (hle : fixed ≤ later) : effect.Lawful later := by
  cases effect with
  | insert callback => exact ⟨h.1.mono hle, fun hR => h.2 (hR.mono hle)⟩
  | delete => trivial
  | _ => exact Callback.Lawful.mono h hle

/-! ### The same thing at any time -/

theorem alike_getD {current other : Option Node} (h : Option.Rel (Node.Alike R) current other) :
    (current.getD .null).Alike R (other.getD .null) := by
  cases h with
  | none => trivial
  | some halike => exact halike

theorem alike_appendable? {node other : Node} (h : node.Alike R other) :
    Option.Rel (List.Forall₂ (Node.Alike R)) (appendable? node) (appendable? other) := by
  rcases Node.alike_cases h with ⟨hnode, rfl⟩ | ⟨_, _, _, _, rfl, rfl, -, hitems⟩ |
    ⟨_, _, _, _, rfl, rfl, -, -⟩
  · cases other with
    | arr label items => cases hnode
    | obj label fields => cases hnode
    | null => exact .some .nil
    | _ => exact .none
  · exact .some hitems
  · exact .none

theorem alike_assignable? {node other : Node} (h : node.Alike R other) :
    Option.Rel (List.Forall₂ (Node.AlikeField R)) (assignable? node) (assignable? other) := by
  rcases Node.alike_cases h with ⟨hnode, rfl⟩ | ⟨_, _, _, _, rfl, rfl, -, -⟩ |
    ⟨_, _, _, _, rfl, rfl, -, hfields⟩
  · cases other with
    | arr label items => cases hnode
    | obj label fields => cases hnode
    | null => exact .some .nil
    | _ => exact .none
  · exact .none
  · exact .some hfields

theorem alike_items? {node other : Node} (h : node.Alike R other) :
    Option.Rel (List.Forall₂ (Node.Alike R)) node.items? other.items? := by
  rcases Node.alike_cases h with ⟨hnode, rfl⟩ | ⟨_, _, _, _, rfl, rfl, -, hitems⟩ |
    ⟨_, _, _, _, rfl, rfl, -, -⟩
  · cases other with
    | arr label items => cases hnode
    | obj label fields => cases hnode
    | _ => exact .none
  · exact .some hitems
  · exact .none

theorem alike_set {fields others : Table Node} {name : String} {value made : Node}
    (h : List.Forall₂ (Node.AlikeField R) fields others) (hvalue : value.Alike R made) :
    List.Forall₂ (Node.AlikeField R) (Table.set fields name value)
      (Table.set others name made) := by
  induction h with
  | nil => exact .cons ⟨rfl, hvalue⟩ .nil
  | @cons field other rest others hfirst hrest ih =>
      obtain ⟨key, held⟩ := field
      obtain ⟨_, kept⟩ := other
      obtain ⟨rfl, hheld⟩ := hfirst
      rw [Table.set, Table.set]
      by_cases hkey : key = name
      · rw [if_pos hkey, if_pos hkey]
        exact .cons ⟨rfl, hvalue⟩ hrest
      · rw [if_neg hkey, if_neg hkey]
        exact .cons ⟨rfl, hheld⟩ ih

theorem alike_merge {changes patches : Table Node}
    (h : List.Forall₂ (Node.AlikeField R) changes patches) :
    ∀ {fields others : Table Node}, List.Forall₂ (Node.AlikeField R) fields others →
      List.Forall₂ (Node.AlikeField R) (Table.merge fields changes)
        (Table.merge others patches) := by
  induction h with
  | nil => intro fields others hfields; exact hfields
  | @cons change patch rest patches hfirst _ ih =>
      intro fields others hfields
      obtain ⟨key, value⟩ := change
      obtain ⟨_, made⟩ := patch
      obtain ⟨rfl, hvalue⟩ := hfirst
      exact ih (alike_set hfields hvalue)

theorem alike_insert {items others : List Node} {item other : Node}
    (h : List.Forall₂ (Node.Alike R) items others) (hitem : item.Alike R other) (index : Nat) :
    List.Forall₂ (Node.Alike R) (items.take index ++ item :: items.drop index)
      (others.take index ++ other :: others.drop index) := by
  refine List.rel_append (List.forall₂_take index h) (.cons hitem ?_)
  exact List.forall₂_drop index h

/-- What two runs make is alike, and all that was alike before still is. -/
def SameOutcome (fixed : Label) (R : Label → Label → Prop)
    (one other : Option Node × Label) : Prop :=
  Extends fixed R one.2 other.2 fun S => Option.Rel (Node.Alike S) one.1 other.1

/-- A draft is built alike, and a container may then be made around it. -/
theorem rel_draft {fixed next later : Label} {draft other : Draft} (hR : Pairing fixed next later R)
    (h : draft.Alike R other) {P : Option Node × Label → Option Node × Label → Prop}
    {work made : Node → Build (Option Node)}
    (hwork : ∀ {S node built after ending}, Pairing fixed after ending S → Subrelation R S →
      node.Alike S built → Option.Rel P (result (work node) after) (result (made built) ending)) :
    Option.Rel P (result (Build.draft draft >>= work) next)
      (result (Build.draft other >>= made) later) := by
  rw [result_bind, result_bind, result_draft, result_draft]
  obtain ⟨S, hS, hmore, hbuilt⟩ := Draft.buildsAlike fixed draft h hR
  exact hwork hS hmore hbuilt

theorem sameOutcome_arr {S : Label → Label → Prop} {fixed next later : Label}
    {items others : List Node} (hS : Pairing fixed next later S) (hmore : Subrelation R S)
    (h : List.Forall₂ (Node.Alike S) items others) :
    Option.Rel (SameOutcome fixed R) (result (some <$> Build.arr items) next)
      (result (some <$> Build.arr others) later) := by
  rw [result_map, result_map, result_arr, result_arr]
  refine .some ⟨Paired S next later, hS.paired, fun h => paired_of (hmore h), .some ?_⟩
  exact Node.alike_arr.mpr ⟨Or.inr ⟨rfl, rfl⟩, h.imp fun _ _ h => h.mono paired_of⟩

theorem sameOutcome_obj {S : Label → Label → Prop} {fixed next later : Label}
    {fields others : Table Node} (hS : Pairing fixed next later S) (hmore : Subrelation R S)
    (h : List.Forall₂ (Node.AlikeField S) fields others) :
    Option.Rel (SameOutcome fixed R) (result (some <$> Build.obj fields) next)
      (result (some <$> Build.obj others) later) := by
  rw [result_map, result_map, result_obj, result_obj]
  refine .some ⟨Paired S next later, hS.paired, fun h => paired_of (hmore h), .some ?_⟩
  exact Node.alike_obj.mpr ⟨Or.inr ⟨rfl, rfl⟩, h.imp fun _ _ h => ⟨h.1, h.2.mono paired_of⟩⟩

variable {fixed next later : Label} {view other : Node}

/-- **A lawful effect does the same thing at any time.** -/
theorem rel_run {effect : Effect} (hlawful : effect.Lawful fixed) (action : Action) (path : Path)
    (hR : Pairing fixed next later R) (hview : view.Alike R other) {current made : Option Node}
    (hcurrent : Option.Rel (Node.Alike R) current made) :
    Option.Rel (SameOutcome fixed R) (result (effect.run action view path current) next)
      (result (effect.run action other path made) later) := by
  have hvalue := alike_getD hcurrent
  cases effect with
  | set callback =>
      rw [run_set, run_set, map_eq_pure_bind, map_eq_pure_bind]
      refine rel_draft hR (hlawful.alike hR.toMatches action hview hvalue) ?_
      intro S node built after ending hS hmore hbuilt
      exact .some ⟨S, hS, hmore, .some hbuilt⟩
  | append callback =>
      rw [run_append, run_append]
      refine rel_draft hR (hlawful.alike hR.toMatches action hview hvalue) ?_
      intro S node built after ending hS hmore hbuilt
      have hitems := alike_appendable? hvalue
      generalize appendable? (current.getD .null) = items at hitems ⊢
      generalize appendable? (made.getD .null) = others at hitems ⊢
      cases hitems with
      | none => exact .none
      | some hitems =>
          refine sameOutcome_arr hS hmore (List.rel_append ?_ (.cons hbuilt .nil))
          exact hitems.imp fun _ _ h => h.mono hmore
  | insert callback =>
      rw [run_insert, run_insert]
      refine rel_draft hR (hlawful.1.alike hR.toMatches action hview hvalue) ?_
      intro S node built after ending hS hmore hbuilt
      have hindex := hlawful.2 hR.toMatches action hview hvalue
      have hitems := alike_items? hvalue
      rw [← hindex]
      generalize (current.getD .null).items? = items at hitems ⊢
      generalize (made.getD .null).items? = others at hitems ⊢
      cases hitems with
      | none => exact .none
      | some hitems =>
          dsimp only
          rw [hitems.length_eq]
          split
          · exact .none
          · have hkept := hitems.imp fun _ _ (h : Node.Alike R _ _) => h.mono hmore
            exact sameOutcome_arr hS hmore (alike_insert hkept hbuilt _)
  | assign callback =>
      rw [run_assign, run_assign]
      have hfields := alike_assignable? hvalue
      generalize assignable? (current.getD .null) = fields at hfields ⊢
      generalize assignable? (made.getD .null) = others at hfields ⊢
      cases hfields with
      | none => exact .none
      | some hfields =>
          refine rel_draft hR (hlawful.alike hR.toMatches action hview hvalue) ?_
          intro S node built after ending hS hmore hbuilt
          have hchanges := alike_assignable? hbuilt
          generalize assignable? node = changes at hchanges ⊢
          generalize assignable? built = patches at hchanges ⊢
          cases hchanges with
          | none => exact .none
          | some hchanges =>
              refine sameOutcome_obj hS hmore (alike_merge hchanges ?_)
              exact hfields.imp fun _ _ h => ⟨h.1, h.2.mono hmore⟩
  | delete => exact .some ⟨R, hR, id, .none⟩

theorem rel_runAll {effects : List Effect} (hlawful : ∀ effect ∈ effects, effect.Lawful fixed)
    (action : Action) (path : Path) :
    ∀ {R : Label → Label → Prop} {next later : Label} {current made : Option Node},
      Pairing fixed next later R → view.Alike R other →
      Option.Rel (Node.Alike R) current made →
      Option.Rel (SameOutcome fixed R) (result (runAll effects action view path current) next)
        (result (runAll effects action other path made) later) := by
  induction effects with
  | nil =>
      intro R next later current made hR _ hcurrent
      exact .some ⟨R, hR, id, hcurrent⟩
  | cons effect rest ih =>
      intro R next later current made hR hview hcurrent
      obtain ⟨hfirst, hrest⟩ := List.forall_mem_cons.mp hlawful
      rw [runAll, runAll, List.foldlM_cons, List.foldlM_cons, result_bind, result_bind]
      refine rel_bind (rel_run hfirst action path hR hview hcurrent) ?_
      rintro ⟨outcome, after⟩ ⟨others, ending⟩ - - ⟨S, hS, hmore, houtcome⟩
      refine rel_mono (ih hrest hS (hview.mono hmore) houtcome) ?_
      rintro one two - - ⟨T, hT, hmost, hlast⟩
      exact ⟨T, hT, fun h => hmost (hmore h), hlast⟩

/-! ### Distinct keys stay distinct -/

theorem Lawful.keeps {effect : Effect} (h : effect.Lawful fixed) : effect.Keeps Node.Distinct := by
  cases effect with
  | insert callback =>
      exact fun action view value hview hvalue => (h.1.distinct action hview hvalue).lays
  | delete => trivial
  | _ => exact fun action view value hview hvalue => (h.distinct action hview hvalue).lays

/-- **A lawful effect makes no object with a key twice.** -/
theorem distinct_run {effect : Effect} (hlawful : effect.Lawful fixed) {action : Action}
    {path : Path} {current outcome : Option Node} {label after : Label} (hview : view.Distinct)
    (hcurrent : Node.DistinctSlot current)
    (h : (effect.run action view path current).run label = .ok (outcome, after)) :
    Node.DistinctSlot outcome :=
  kept_run Node.kept_distinct hlawful.keeps hview hcurrent (Nat.zero_le label) h

theorem distinct_runAll {effects : List Effect} (hlawful : ∀ effect ∈ effects, effect.Lawful fixed)
    {action : Action} {path : Path} (hview : view.Distinct) :
    ∀ {current outcome : Option Node} {label after : Label}, Node.DistinctSlot current →
      (runAll effects action view path current).run label = .ok (outcome, after) →
      Node.DistinctSlot outcome := by
  induction effects with
  | nil =>
      intro current outcome label after hcurrent h
      cases h
      exact hcurrent
  | cons effect rest ih =>
      intro current outcome label after hcurrent h
      obtain ⟨hfirst, hrest⟩ := List.forall_mem_cons.mp hlawful
      rw [runAll, List.foldlM_cons] at h
      obtain ⟨next, between, hnext, h⟩ := run_bind_ok.mp h
      exact ih hrest (distinct_run hfirst hview hcurrent hnext) h

end Effect

end Reducer
