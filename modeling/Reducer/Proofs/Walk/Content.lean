/-
Walks on trees of one content.

A walk whose effects read contents can be followed without any labels.  `Pass.outline` is
that walk: it acts as the effects do, gives every container the label 0, and ends in a
tree whose content is right and whose labels mean nothing.  A walk as it is run, on any
tree of that content and from any label on, fails when the outline fails and otherwise
ends in a tree of the same content, `Pass.outline_walk`.

The two may be walks of different passes.  What has to agree is the action, the content of
the view, and where the steps of the trie lead; a step that sees the state and not the view
is the only one for which the states themselves matter.
-/
import Reducer.Proofs.Content
import Reducer.Proofs.Trie
import Reducer.Proofs.Walk.Slots
import Reducer.Reduce

namespace Reducer

open Build

namespace Trie

variable {α : Type} {P P' : Step → Prop} {Q Q' : α → Prop}

/-! ### What holds everywhere in a trie -/

/-- Every step of the trie has a property, and every value in it has one. -/
inductive Every (P : Step → Prop) (Q : α → Prop) : Trie α → Prop
  | node {values branches} (hvalues : ∀ value ∈ values, Q value)
      (hsteps : ∀ branch ∈ branches, P branch.1)
      (hbelow : ∀ branch ∈ branches, Every P Q branch.2) : Every P Q (.node values branches)

/-- The same of branches, the steps into them included. -/
def EveryBranch (P : Step → Prop) (Q : α → Prop) (branches : List (Step × Trie α)) : Prop :=
  ∀ branch ∈ branches, P branch.1 ∧ branch.2.Every P Q

theorem every_iff {trie : Trie α} :
    trie.Every P Q ↔ (∀ value ∈ trie.values, Q value) ∧ EveryBranch P Q trie.branches := by
  constructor
  · rintro ⟨hvalues, hsteps, hbelow⟩
    exact ⟨hvalues, fun branch hbranch => ⟨hsteps branch hbranch, hbelow branch hbranch⟩⟩
  · obtain ⟨values, branches⟩ := trie
    rintro ⟨hvalues, hbranches⟩
    exact .node hvalues (fun branch hbranch => (hbranches branch hbranch).1)
      fun branch hbranch => (hbranches branch hbranch).2

theorem Every.mono {trie : Trie α} (h : trie.Every P Q) (hsteps : ∀ step, P step → P' step)
    (hvalues : ∀ value, Q value → Q' value) : trie.Every P' Q' := by
  induction h with
  | node hheld hstep _ ih =>
      exact .node (fun value hvalue => hvalues value (hheld value hvalue))
        (fun branch hbranch => hsteps _ (hstep branch hbranch)) ih

theorem Every.and {trie : Trie α} (h : trie.Every P Q) (hother : trie.Every P' Q') :
    trie.Every (fun step => P step ∧ P' step) fun value => Q value ∧ Q' value := by
  induction h with
  | node hvalues hsteps _ ih =>
      obtain ⟨hheld, hstep, hbelow⟩ := hother
      exact .node (fun value hvalue => ⟨hvalues value hvalue, hheld value hvalue⟩)
        (fun branch hbranch => ⟨hsteps branch hbranch, hstep branch hbranch⟩)
        fun branch hbranch => ih branch hbranch (hbelow branch hbranch)

theorem every_empty : (empty : Trie α).Every P Q :=
  .node (by simp) (by simp) (by simp)

theorem every_insert {steps : List Step} {value : α} (hsteps : ∀ step ∈ steps, P step)
    (hvalue : Q value) :
    ∀ {trie : Trie α}, trie.Every P Q → (trie.insert steps value).Every P Q := by
  induction steps with
  | nil =>
      rintro trie ⟨hvalues, hbranches, hbelow⟩
      refine .node (fun held hheld => ?_) hbranches hbelow
      rcases List.mem_append.mp hheld with hold | hnew
      · exact hvalues held hold
      · rw [List.mem_singleton.mp hnew]
        exact hvalue
  | cons step rest ih =>
      rintro trie ⟨hvalues, hbranches, hbelow⟩
      obtain ⟨hfirst, hrest⟩ := List.forall_mem_cons.mp hsteps
      refine .node hvalues (fun branch hbranch => ?_) fun branch hbranch => ?_
      · rcases mem_graft hbranch with hmem | ⟨held, -, -, ⟨hstep, -⟩ | hmem⟩
        · exact hbranches branch hmem
        · exact hstep ▸ hfirst
        · exact hbranches (branch.1, held) hmem
      · rcases mem_graft hbranch with hmem | ⟨held, hgrafted, -, ⟨-, rfl⟩ | hmem⟩
        · exact hbelow branch hmem
        · rw [hgrafted]
          exact ih hrest every_empty
        · rw [hgrafted]
          exact ih hrest (hbelow _ hmem)

/-- A trie has everywhere what every entry has that it was filled with. -/
theorem every_insertAll {entries : List (List Step × α)}
    (h : ∀ entry ∈ entries, (∀ step ∈ entry.1, P step) ∧ Q entry.2) :
    ∀ {trie : Trie α}, trie.Every P Q → (trie.insertAll entries).Every P Q := by
  induction entries with
  | nil => exact fun htrie => htrie
  | cons entry rest ih =>
      intro trie htrie
      obtain ⟨⟨hsteps, hvalue⟩, hrest⟩ := List.forall_mem_cons.mp h
      exact ih hrest (every_insert hsteps hvalue htrie)

end Trie

namespace Walker

/-- What holds everywhere along some branches holds along those that are left below a slot. -/
theorem everyBranch_below {α : Type} {walker : Walker Build α} {P : Step → Prop} {Q : α → Prop}
    {path : Path} {seg : Seg} {branches below : List (Step × Trie α)}
    {current outcome : Option Node} {label after : Label}
    (hbranches : Trie.EveryBranch P Q branches)
    (h : (walker.settle path seg branches current).run label = .ok ((outcome, below), after)) :
    Trie.EveryBranch P Q below := by
  intro branch hbranch
  obtain ⟨parent, hparent, hmem⟩ := leadsTo_of_mem_below h branch hbranch
  exact (Trie.every_iff.mp (hbranches parent hparent.mem).2).2 branch hmem

/-! ### Containers -/

/-- Fields visited alike, slot by slot, are alike in content. -/
theorem rel_visitFields {R : Label → Label → Prop} {visit : Seg → Node → Build (Option Node)}
    {tourAt : Seg → Node → Option (Option Node)} {fields others : List (String × Node)}
    (h : List.Forall₂ (Node.AlikeField R) fields others) :
    ∀ {label : Label}, (∀ name value made start, value.Alike R made →
        VisitedAt visit (others.map fun field => (.key field.1, field.2)) label (.key name, made)
          start →
        Option.Rel (fun one run => one.map Node.toJson = run.1.map Node.toJson)
          (tourAt (.key name) value) (result (visit (.key name) made) start)) →
      Option.Rel (fun one run => Table.mapValues Node.toJson one =
          Table.mapValues Node.toJson run.1)
        (visitFields tourAt fields) (result (visitFields visit others) label) := by
  induction h with
  | nil => intro label _; exact .some rfl
  | @cons field other rest others hfirst _ ih =>
      intro label hslots
      obtain ⟨name, value⟩ := field
      obtain ⟨_, made⟩ := other
      obtain ⟨rfl, halike⟩ := hfirst
      rw [visitFields_cons, visitFields, result_bind]
      refine rel_bind (hslots name value made label halike .head) fun {one run} _ hrun hsame => ?_
      obtain ⟨outcome, between⟩ := run
      have hvisit := result_eq_some.mp hrun
      have hothers := ih fun name value made start halike hvisited =>
        hslots name value made start halike (hvisited.cons hvisit)
      dsimp only
      rw [← map_eq_pure_bind, result_map]
      refine rel_map hothers fun {left right} hrest => ?_
      cases one with
      | none =>
          cases outcome with
          | none => exact hrest
          | some made => cases hsame
      | some value =>
          cases outcome with
          | none => cases hsame
          | some made =>
              have hfield : value.toJson = made.toJson := Option.some.inj hsame
              show (_, value.toJson) :: _ = (_, made.toJson) :: _
              rw [hfield]
              exact congrArg _ hrest

/-- Items visited alike, one by one, leave slots of one content. -/
theorem rel_visitItems {visit : Seg → Node → Option (Option Node)}
    {other : Seg → Node → Build (Option Node)}
    (hslots : ∀ position {value made : Node} start, value.Akin made →
      Option.Rel (fun one run => Node.AkinSlot one run.1)
        (visit (.index position) value) (result (other (.index position) made) start))
    {items others : List Node} (h : List.Forall₂ Node.Akin items others) :
    ∀ (position : Nat) (label : Label),
      Option.Rel (fun one run => List.Forall₂ Node.AkinSlot one run.1)
        (visitItems visit position items) (result (visitItems other position others) label) := by
  induction h with
  | nil => intro position label; exact .some .nil
  | cons hfirst _ ih =>
      intro position label
      rw [visitItems, visitItems, result_bind]
      refine rel_bind (hslots position label hfirst) fun {one run} _ _ hslot => ?_
      rw [result_bind]
      exact rel_bind (ih (position + 1) run.2) fun _ _ hrest => .some (.cons hslot hrest)

theorem akin_compact {slots others : List (Option Node)}
    (h : List.Forall₂ Node.AkinSlot slots others) :
    List.Forall₂ Node.Akin (compact slots) (compact others) := by
  have hhole : slots.any isHole = others.any isHole := by
    induction h with
    | nil => rfl
    | cons hfirst _ ih =>
        rw [List.any_cons, List.any_cons, ih]
        cases hfirst with
        | none => rfl
        | some hakin => rw [isHole, isHole, hakin.isNull]
  have hitems : List.Forall₂ Node.Akin (slots.filterMap id) (others.filterMap id) :=
    List.rel_filterMap (fun _ _ hslot => hslot) h
  unfold compact
  rw [hhole]
  split
  · refine List.rel_filter (fun value made hakin => ?_) hitems
    show (!value.isNull) = true ↔ (!made.isNull) = true
    rw [hakin.isNull]
  · exact hitems

end Walker

namespace Pass

/-! ### The outline -/

/-- The walk of effects without labels: what it makes has the right content and no more. -/
def outline (pass : Pass) : Walker Option Effect where
  leads := pass.leads
  act path effect current :=
    (result (effect.run pass.action pass.view path current) 0).map (·.1)
  label := some 0

/-- A step leads to the same children in both passes, going by their contents. -/
def LeadsAlike (pass other : Pass) (step : Step) : Prop :=
  ∀ (value made : Node) (seg : Seg), value.Akin made →
    pass.leads step value seg = other.leads step made seg

/-- One action, and views of one content. -/
structure Resembles (pass other : Pass) : Prop where
  action : pass.action = other.action
  view : pass.view.Akin other.view

variable {pass other : Pass}

/-- Branches that two passes follow alike, with effects that read contents. -/
abbrev Readable (pass other : Pass) (branches : List (Step × Trie Effect)) : Prop :=
  Trie.EveryBranch (pass.LeadsAlike other) Effect.ReadsContent branches

theorem outline_actAll (h : pass.Resembles other) (path : Path) {effects : List Effect}
    (heffects : ∀ effect ∈ effects, effect.ReadsContent) :
    ∀ {current made : Option Node} (label : Label), Node.AkinSlot current made →
      Option.Rel (fun one run => Node.AkinSlot one run.1)
        (pass.outline.actAll path effects current)
        (result (other.walker.actAll path effects made) label) := by
  induction effects with
  | nil => intro current made label hcurrent; exact .some hcurrent
  | cons effect rest ih =>
      intro current made label hcurrent
      obtain ⟨hfirst, hrest⟩ := List.forall_mem_cons.mp heffects
      rw [Walker.actAll, Walker.actAll, result_bind]
      have hrun := (Effect.agree_run hfirst pass.action path h.view hcurrent).rel 0 label
      refine rel_bind ?_ fun {one run} _ _ hslot => ih hrest run.2 hslot
      show Option.Rel _ ((result (effect.run pass.action pass.view path current) 0).map (·.1))
        (result (effect.run other.action other.view path made) label)
      rw [← h.action]
      generalize result (effect.run pass.action pass.view path current) 0 = left at hrun ⊢
      generalize result (effect.run pass.action other.view path made) label = right at hrun ⊢
      cases hrun with
      | none => exact .none
      | some hslot => exact .some hslot

/-- A slot is settled alike, and the branches left over are the same. -/
theorem outline_settle (h : pass.Resembles other) (path : Path) (seg : Seg)
    {branches : List (Step × Trie Effect)} (hreads : Readable pass other branches) :
    ∀ {current made : Option Node} (label : Label), Node.AkinSlot current made →
      Option.Rel (fun one run => Node.AkinSlot one.1 run.1.1 ∧ one.2 = run.1.2 ∧
          Readable pass other one.2)
        (pass.outline.settle path seg branches current)
        (result (other.walker.settle path seg branches made) label) := by
  induction branches with
  | nil =>
      intro current made label hcurrent
      exact .some ⟨hcurrent, rfl, fun branch hbranch => absurd hbranch List.not_mem_nil⟩
  | cons branch rest ih =>
      intro current made label hcurrent
      obtain ⟨step, trie⟩ := branch
      obtain ⟨⟨hstep, htrie⟩, hrest⟩ := List.forall_mem_cons.mp hreads
      obtain ⟨hvalues, hbelow⟩ := Trie.every_iff.mp htrie
      have hleads : pass.outline.leads step (current.getD .null) seg =
          other.walker.leads step (made.getD .null) seg :=
        hstep _ _ seg (Effect.alike_getD hcurrent)
      rw [Walker.settle, Walker.settle, hleads]
      split
      · rw [result_bind]
        refine rel_bind (outline_actAll h path hvalues label hcurrent) fun {one run} _ _ hslot => ?_
        rw [result_bind]
        refine rel_bind (ih hrest run.2 hslot) fun {last ending} _ _ hlast => ?_
        obtain ⟨hakin, hsame, hothers⟩ := hlast
        refine .some ⟨hakin, congrArg (trie.branches ++ ·) hsame, fun branch hbranch => ?_⟩
        rcases List.mem_append.mp hbranch with hhere | hlater
        · exact hbelow branch hhere
        · exact hothers branch hlater
      · exact ih hrest label hcurrent

/-- Two ways down make trees of one content of trees of one content. -/
def DeeperAlike (pass other : Pass)
    (deeper : Path → List (Step × Trie Effect) → Node → Option Node)
    (down : Path → List (Step × Trie Effect) → Node → Build Node) : Prop :=
  ∀ path {branches : List (Step × Trie Effect)} {value made : Node} (label : Label),
    Readable pass other branches → value.Akin made →
    Option.Rel (fun one run => one.Akin run.1) (deeper path branches value)
      (result (down path branches made) label)

theorem outline_visitSlot {deeper : Path → List (Step × Trie Effect) → Node → Option Node}
    {down : Path → List (Step × Trie Effect) → Node → Build Node} (h : pass.Resembles other)
    (hdeeper : DeeperAlike pass other deeper down) (path : Path)
    {branches : List (Step × Trie Effect)} (hreads : Readable pass other branches) (seg : Seg)
    {value made : Node} (label : Label) (hvalue : value.Akin made) :
    Option.Rel (fun one run => Node.AkinSlot one run.1)
      (pass.outline.visitSlot deeper path branches seg value)
      (result (other.walker.visitSlot down path branches seg made) label) := by
  rw [Walker.visitSlot, Walker.visitSlot, result_bind]
  refine rel_bind (outline_settle h (path ++ [seg]) seg hreads label (.some hvalue)) ?_
  rintro ⟨current, below⟩ ⟨⟨settled, others⟩, after⟩ - - ⟨hslot, hsame, hbelow⟩
  obtain rfl : below = others := hsame
  cases hslot with
  | none => exact .some .none
  | some hakin =>
      dsimp only
      split
      · exact .some (.some hakin)
      · rw [result_bind]
        exact rel_bind (hdeeper _ after hbelow hakin) fun _ _ hmade => .some (.some hmade)

theorem outline_rebuildSlots {visit : Seg → Node → Option (Option Node)}
    {down : Seg → Node → Build (Option Node)}
    (hslots : ∀ seg {value made : Node} label, value.Akin made →
      Option.Rel (fun one run => Node.AkinSlot one run.1) (visit seg value)
        (result (down seg made) label))
    {node made : Node} (label : Label) (h : node.Akin made) :
    Option.Rel (fun one run => one.Akin run.1) (pass.outline.rebuildSlots visit node)
      (result (other.walker.rebuildSlots down made) label) := by
  rcases Node.alike_cases h with ⟨hnode, rfl⟩ | ⟨_, items, _, others, rfl, rfl, -, hitems⟩ |
    ⟨_, fields, _, others, rfl, rfl, -, hfields⟩
  · cases made with
    | arr label items => cases hnode
    | obj label fields => cases hnode
    | _ => exact .some h
  · rw [Walker.rebuildSlots, Walker.rebuildSlots, result_bind]
    refine rel_bind
      (Walker.rel_visitItems (fun position => hslots (.index position)) hitems 0 label)
      fun _ _ hslots => ?_
    exact .some (Node.alike_arr.mpr ⟨trivial, Walker.akin_compact hslots⟩)
  · rw [Walker.rebuildSlots, Walker.rebuildSlots, result_bind]
    refine rel_bind (Walker.rel_visitFields hfields ?_) fun {one run} _ _ hsame => ?_
    · intro name value made start hakin _
      refine rel_mono (hslots (.key name) start hakin) fun _ _ hslot => ?_
      exact Node.akinSlot_iff.mp hslot
    · refine .some (Node.akin_of_toJson_eq ?_)
      rw [Node.toJson_obj, Node.toJson_obj, hsame]

theorem outline_rebuild (h : pass.Resembles other) (levels : Nat) :
    DeeperAlike pass other (pass.outline.rebuild levels) (other.walker.rebuild levels) := by
  induction levels with
  | zero => intro path branches value made label _ hvalue; exact .some hvalue
  | succ levels ih =>
      intro path branches value made label hreads hvalue
      rw [Walker.rebuild, Walker.rebuild]
      refine outline_rebuildSlots (fun seg {value made} label hakin => ?_) label hvalue
      exact outline_visitSlot h ih path hreads seg label hakin

/-- **A walk does to a tree what its outline does to any tree of that content.** -/
theorem outline_walk (h : pass.Resembles other) {trie : Trie Effect}
    (hreads : trie.Every (pass.LeadsAlike other) Effect.ReadsContent) {root made : Node}
    (label : Label) (hroot : root.Akin made) :
    Option.Rel (fun one run => one.Akin run.1) (pass.outline.walk trie root)
      (result (other.walker.walk trie made) label) :=
  outline_rebuild h _ [] label (Trie.every_iff.mp hreads).2 hroot

end Pass

end Reducer
