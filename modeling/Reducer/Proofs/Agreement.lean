/-
Reductions that end alike.

Where callbacks and predicates read contents, not only what a reduction makes depends on
contents alone, but also whether it fails and with which fault.  Two walks of such effects
along one trie, each on its own tree and from its own label on, agree as long as the trees
are of one content: a slot is settled alike and leaves the same branches, so both go down at
the same places, and what they put back is of one content again.  The induction is on the
levels of the walk.
-/
import Reducer.Proofs.Outline

namespace Reducer

open Build

/-! ### Slots -/

namespace Node

/-- Slots of one name, with children of one content. -/
def AlikeSlot (slot other : Seg × Node) : Prop :=
  slot.1 = other.1 ∧ slot.2.Akin other.2

theorem Alike.slots {node other : Node} (h : node.Akin other) :
    List.Forall₂ AlikeSlot node.slots other.slots := by
  rcases alike_cases h with ⟨hnode, rfl⟩ | ⟨_, items, _, others, rfl, rfl, -, hitems⟩ |
    ⟨_, fields, _, others, rfl, rfl, -, hfields⟩
  · cases other with
    | arr label items => cases hnode
    | obj label fields => cases hnode
    | _ => exact .nil
  · refine List.forall₂_map_left_iff.mpr (List.forall₂_map_right_iff.mpr ?_)
    exact (forall₂_zipIdx hitems 0).imp fun item made hpair =>
      ⟨congrArg Seg.index hpair.2, hpair.1⟩
  · refine List.forall₂_map_left_iff.mpr (List.forall₂_map_right_iff.mpr ?_)
    exact hfields.imp fun field made hpair => ⟨congrArg Seg.key hpair.1, hpair.2⟩

theorem alike_keepFields {fields others : List (String × Node)}
    {outcomes results : List (Option Node)}
    (hfields : List.Forall₂ (AlikeField fun _ _ => True) fields others)
    (h : List.Forall₂ AkinSlot outcomes results) :
    List.Forall₂ (AlikeField fun _ _ => True) (keepFields fields outcomes)
      (keepFields others results) := by
  induction hfields generalizing outcomes results with
  | nil =>
      rw [keepFields, keepFields]
      · exact .nil
      all_goals simp
  | @cons field other rest others hfirst _ ih =>
      cases h with
      | nil =>
          rw [keepFields, keepFields]
          · exact .nil
          all_goals simp
      | cons hslot hrest =>
          cases hslot with
          | none => exact ih hrest
          | some hvalue => exact .cons ⟨hfirst.1, hvalue⟩ (ih hrest)

/-- Containers of one content, refilled with slots of one content, are of one content. -/
theorem Alike.refill {node other : Node} (h : node.Akin other) (label made : Label)
    {outcomes results : List (Option Node)} (houtcomes : List.Forall₂ AkinSlot outcomes results) :
    (node.refill label outcomes).Akin (other.refill made results) := by
  rcases alike_cases h with ⟨hnode, rfl⟩ | ⟨_, items, _, others, rfl, rfl, -, hitems⟩ |
    ⟨_, fields, _, others, rfl, rfl, -, hfields⟩
  · cases other with
    | arr label items => cases hnode
    | obj label fields => cases hnode
    | _ => exact h
  · exact alike_arr.mpr ⟨trivial, Walker.akin_compact houtcomes⟩
  · exact alike_obj.mpr ⟨trivial, alike_keepFields hfields houtcomes⟩

end Node

theorem Walker.agree_visitAll {visit other : Seg → Node → Build (Option Node)}
    (hvisit : ∀ seg {value made : Node}, value.Akin made →
      Agree Node.AkinSlot (visit seg value) (other seg made))
    {slots others : List (Seg × Node)} (h : List.Forall₂ Node.AlikeSlot slots others) :
    Agree (List.Forall₂ Node.AkinSlot) (visitAll visit slots) (visitAll other others) := by
  induction h with
  | nil => exact agree_pure .nil
  | @cons slot found rest others hfirst _ ih =>
      obtain ⟨seg, value⟩ := slot
      obtain ⟨_, made⟩ := found
      obtain ⟨rfl, hvalue⟩ := hfirst
      rw [visitAll, visitAll]
      refine (hvisit seg hvalue).bind fun hslot => ?_
      exact ih.bind fun hrest => agree_pure (.cons hslot hrest)

/-! ### Walks -/

namespace Pass

variable {pass other : Pass}

theorem agree_actAll (h : pass.Resembles other) (path : Path) {effects : List Effect}
    (heffects : ∀ effect ∈ effects, effect.ReadsContent) :
    ∀ {current made : Option Node}, Node.AkinSlot current made →
      Agree Node.AkinSlot (pass.walker.actAll path effects current)
        (other.walker.actAll path effects made) := by
  induction effects with
  | nil => exact fun hcurrent => agree_pure hcurrent
  | cons effect rest ih =>
      intro current made hcurrent
      obtain ⟨hfirst, hrest⟩ := List.forall_mem_cons.mp heffects
      rw [Walker.actAll, Walker.actAll]
      have hrun := Effect.agree_run hfirst pass.action path h.view hcurrent
      refine Agree.bind (P := Node.AkinSlot) ?_ fun hslot => ih hrest hslot
      show Agree _ (effect.run pass.action pass.view path current)
        (effect.run other.action other.view path made)
      rw [← h.action]
      exact hrun

/-- A slot is settled alike, and the branches left over are the same. -/
theorem agree_settle (h : pass.Resembles other) (path : Path) (seg : Seg)
    {branches : List (Step × Trie Effect)} (hreads : Readable pass other branches) :
    ∀ {current made : Option Node}, Node.AkinSlot current made →
      Agree (fun one two => Node.AkinSlot one.1 two.1 ∧ one.2 = two.2 ∧ Readable pass other one.2)
        (pass.walker.settle path seg branches current)
        (other.walker.settle path seg branches made) := by
  induction branches with
  | nil => exact fun hcurrent => agree_pure ⟨hcurrent, rfl, List.forall_mem_nil _⟩
  | cons branch rest ih =>
      intro current made hcurrent
      obtain ⟨step, trie⟩ := branch
      obtain ⟨⟨hstep, htrie⟩, hrest⟩ := List.forall_mem_cons.mp hreads
      obtain ⟨hvalues, hbelow⟩ := Trie.every_iff.mp htrie
      have hleads : pass.walker.leads step (current.getD .null) seg =
          other.walker.leads step (made.getD .null) seg :=
        hstep _ _ seg (Effect.alike_getD hcurrent)
      rw [Walker.settle, Walker.settle, hleads]
      split
      · refine (agree_actAll h path hvalues hcurrent).bind fun hslot => ?_
        refine (ih hrest hslot).bind fun {last final} hlast => agree_pure ?_
        obtain ⟨hakin, hsame, hothers⟩ := hlast
        exact ⟨hakin, congrArg (trie.branches ++ ·) hsame,
          List.forall_mem_append.mpr ⟨hbelow, hothers⟩⟩
      · exact ih hrest hcurrent

/-- **The walks of passes that resemble each other end alike on trees of one content.** -/
theorem agree_rebuild (h : pass.Resembles other) (levels : Nat) :
    ∀ (path : Path) {branches : List (Step × Trie Effect)}, Readable pass other branches →
      ∀ {value made : Node}, value.Akin made →
        Agree Node.Akin (pass.walker.rebuild levels path branches value)
          (other.walker.rebuild levels path branches made) := by
  induction levels with
  | zero => exact fun path branches _ value made hvalue => agree_pure hvalue
  | succ levels ih =>
      intro path branches hreads value made hvalue
      have hvisit : ∀ seg {child found : Node}, child.Akin found →
          Agree Node.AkinSlot
            (pass.walker.visitSlot (pass.walker.rebuild levels) path branches seg child)
            (other.walker.visitSlot (other.walker.rebuild levels) path branches seg found) := by
        intro seg child found hchild
        -- Settled alike, the slot goes down on both sides or on neither, along the same branches.
        refine (agree_settle h (path ++ [seg]) seg hreads (.some hchild)).bind ?_
        rintro ⟨current, below⟩ ⟨settled, others⟩ ⟨hslot, hsame, hbelow⟩
        obtain rfl : below = others := hsame
        cases hslot with
        | none => exact agree_pure .none
        | some hakin =>
            dsimp only
            split
            · exact agree_pure (.some hakin)
            · exact (ih _ hbelow hakin).bind fun hmade => agree_pure (.some hmade)
      rw [Walker.rebuild, Walker.rebuild, Walker.rebuildSlots_eq, Walker.rebuildSlots_eq,
        hvalue.isContainer]
      split
      · refine (Walker.agree_visitAll hvisit hvalue.slots).bind fun houtcomes => ?_
        exact agree_fresh.bind fun {label new} _ => agree_pure (hvalue.refill label new houtcomes)
      · exact agree_pure hvalue

end Pass

/-! ### Reductions -/

namespace Registry

variable {registry : Registry} {state made : Node}

/-- **Reducing states of one content ends alike.** -/
theorem agree_reduce (hreads : registry.ReadsContent) (action : Action) (h : state.Akin made) :
    Agree Node.Akin (registry.reduce state action) (registry.reduce made action) := by
  rw [reduce, reduce]
  cases htrie : registry.trie? action.type with
  | none => exact agree_pure h
  | some trie =>
      refine (Redirects.agree_view (hreads.redirects _) action h).bind fun {view built} hview => ?_
      have hsame : Pass.Resembles ⟨action, state, view⟩ ⟨action, made, built⟩ := ⟨rfl, hview⟩
      have hbranches := (hreads.tries _ trie htrie).mono
        (fun step hstep => Pass.leadsAlike_of_reads hsame hstep fun _ _ => h)
        fun _ heffect => heffect
      exact Pass.agree_rebuild hsame _ [] (Trie.every_iff.mp hbranches).2 h

/-- Reducing several actions ends alike too. -/
theorem agree_reduceAll (hreads : registry.ReadsContent) (actions : List Action) :
    ∀ {state made : Node}, state.Akin made →
      Agree Node.Akin (registry.reduceAll state actions) (registry.reduceAll made actions) := by
  induction actions with
  | nil => exact fun h => agree_pure h
  | cons action rest ih => exact fun h => (agree_reduce hreads action h).bind fun hnext => ih hnext

end Registry

end Reducer
