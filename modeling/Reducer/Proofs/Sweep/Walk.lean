/-
A walk along keys is a tour.

Where all slices are paths of keys, a trie of them holds at every path what is done at
exactly that path, `Trie.Names`, and at most one branch leads to a slot.  So a slot is
settled by the effects of its path and nothing else, and the walk goes on below it with
the branches of its path: it does what a tour does, slot by slot.

Arrays are the exception.  No key leads into an array, but a walk that comes to one
rebuilds it, and that drops its nulls.  `MeetsNoNulls` rules this out, and then the
rebuilt array has the items it had.
-/
import Reducer.Proofs.Sweep.Slots
import Reducer.Proofs.Walk.Content
import Reducer.Proofs.Walk.Labels
import Reducer.Proofs.Walk.Literal

namespace Reducer

open Build

/-! ### Tries of keys -/

namespace Trie

variable {α : Type}

/-- Every branch is that of a key, and no two are of one key. -/
structure Keyed (branches : List (Step × Trie α)) : Prop where
  steps : branches.Pairwise fun a b => (a.1 == b.1) = false
  keys : ∀ branch ∈ branches, ∃ name, branch.1 = .literal (.key name)

/-- The trie branches by keys only, and has at each path the values that belong there. -/
structure Names (trie : Trie α) (valuesAt : Path → List α) : Prop where
  /-- Every node on a path branches by keys. -/
  keyed : ∀ (path : Path) node, trie.at? path.steps = some node → Keyed node.branches
  /-- The values at a path are those of its node, and none if it has no node. -/
  values : ∀ path : Path, valuesAt path = ((trie.at? path.steps).getD empty).values

theorem Names.literalAt {trie : Trie α} {valuesAt : Path → List α} (h : trie.Names valuesAt) :
    trie.LiteralAt := by
  intro path node hnode
  obtain ⟨hsteps, hkeys⟩ := h.keyed path node hnode
  refine ⟨hsteps, fun branch hbranch => ?_⟩
  obtain ⟨name, hname⟩ := hkeys branch hbranch
  exact ⟨.key name, hname⟩

/-- A trie that holds effects on paths of keys has at each path the effects on it. -/
theorem Holds.names {trie : Trie Effect} {named : List (Path × Effect)}
    (h : trie.Holds (named.map fun entry => (entry.1.steps, entry.2)))
    (hkeyed : ∀ entry ∈ named, entry.1.Keyed) : trie.Names (effectsAt named) := by
  have hpaths : ∀ entry ∈ named.map fun entry => (entry.1.steps, entry.2),
      ∃ path : Path, entry.1 = path.steps := by
    intro entry hentry
    obtain ⟨⟨path, effect⟩, -, rfl⟩ := List.mem_map.mp hentry
    exact ⟨path, rfl⟩
  constructor
  · intro path node hnode
    obtain ⟨hsteps, -⟩ := h.deterministic.at? hnode
    refine ⟨hsteps, fun branch hbranch => ?_⟩
    obtain ⟨entry, hentry, path, seg, hpath, hseg, hbranch⟩ := h.exists_seg hpaths hnode hbranch
    obtain ⟨⟨slice, effect⟩, hmem, rfl⟩ := List.mem_map.mp hentry
    obtain rfl := Path.steps_injective hpath
    obtain ⟨name, rfl⟩ := hkeyed _ hmem seg hseg
    exact ⟨name, hbranch⟩
  · intro path
    have hsame : ∀ slice : Path, stepKeys slice.steps = stepKeys path.steps ↔ slice = path := by
      intro slice
      rw [stepKeys_steps, stepKeys_steps]
      exact List.map_inj_right fun _ _ => Sum.inl.inj
    cases hnode : trie.at? path.steps with
    | some node =>
        rw [Option.getD_some, h.values_eq _ node hnode, List.filter_map, List.map_map, effectsAt]
        simp only [Function.comp_def, hsame]
    | none =>
        rw [Option.getD_none, effectsAt, List.map_eq_nil_iff.mpr]
        · rfl
        · refine List.filter_eq_nil_iff.mpr fun entry hentry hhere => ?_
          have hsome : (trie.at? path.steps).isSome = true := by
            refine (h.node_iff _).mpr ⟨_, List.mem_map.mpr ⟨entry, hentry, rfl⟩, ?_⟩
            rw [(hsame entry.1).mpr (by simpa using hhere)]
          rw [hnode] at hsome
          cases hsome

end Trie

/-! ### Slots -/

namespace Pass

variable {pass : Pass}

theorem byName_walker (pass : Pass) : pass.walker.ByName :=
  fun _ _ _ => rfl

theorem actAll_eq (path : Path) (effects : List Effect) (current : Option Node) :
    pass.walker.actAll path effects current =
      Effect.runAll effects pass.action pass.view path current := by
  induction effects generalizing current with
  | nil => rfl
  | cons effect rest ih => exact bind_congr ih

end Pass

/-! ### Frames -/

namespace Walker

variable {α : Type} {walker : Walker Build α}

/-- No array the walk rebuilds has a null in it. -/
def MeetsNoNulls (walker : Walker Build α) (start : Frame α) : Prop :=
  ∀ frame label items, walker.Enters start frame → frame.node = .arr label items →
    ∀ item ∈ items, item.isNull = false

theorem MeetsNoNulls.of_descends {start next : Frame α} (h : walker.MeetsNoNulls start)
    (hstart : walker.Descends start next) : walker.MeetsNoNulls next :=
  fun frame label items henters => h frame label items (Relation.ReflTransGen.head hstart henters)

end Walker

namespace Trie

variable {α : Type} {top : Trie α} {valuesAt : Path → List α}

theorem Names.keyed_of_leads (hnames : top.Names valuesAt) {frame : Frame α} (h : top.Leads frame) :
    Keyed frame.branches := by
  obtain ⟨node, hnode, hbranches⟩ := h
  exact hbranches ▸ hnames.keyed _ node hnode

/-- Where the trie has no node there are no values, and none further down. -/
theorem Names.eq_nil_of_none (hnames : top.Names valuesAt) {path : Path}
    (h : top.at? path.steps = none) (rest : Path) : valuesAt (path ++ rest) = [] := by
  rw [hnames.values, at?_steps_append, h]
  rfl

/-- Below a node without branches there are no values. -/
theorem Names.eq_nil_of_branches (hnames : top.Names valuesAt) {path : Path} {node : Trie α}
    (h : top.at? path.steps = some node) (hnode : node.branches = []) {rest : Path}
    (hrest : rest ≠ []) : valuesAt (path ++ rest) = [] := by
  obtain ⟨seg, others, rfl⟩ := List.exists_cons_of_ne_nil hrest
  have hnone : top.at? (path ++ [seg]).steps = none := by
    rw [at?_steps_append, h, Option.bind_some, at?_steps_singleton, hnode]
    rfl
  have hbelow := hnames.eq_nil_of_none hnone others
  rwa [List.append_assoc, List.singleton_append] at hbelow

end Trie

namespace Pass

variable {pass : Pass} {fixed : Label} {effects : Path → List Effect} {top : Trie Effect}

/-! ### Slots and what is below them -/

/-- The walk of a frame makes what a tour of a value like its node makes. -/
def Tours (pass : Pass) (fixed : Label) (effects : Path → List Effect) (depth : Nat)
    (frame : Frame Effect) : Prop :=
  ∀ value, Node.Ready fixed frame.label value frame.node →
    Option.Rel (fun one run => one.toJson = run.1.toJson)
      (tour (pass.actOn fixed effects) depth frame.path value)
      (result (pass.walker.rebuildFully frame.path frame.branches frame.node) frame.label)

/-- A slot is visited as it is toured, if that is so of what is below it. -/
theorem rel_visitSlot (hsound : pass.Sound fixed effects) (hnames : top.Names effects)
    {frame : Frame Effect} (hframe : top.Leads frame) {depth : Nat} {seg : Seg} {value made : Node}
    {start : Label} (hvisit : pass.walker.Visits frame seg made start) (hstart : fixed ≤ start)
    (hready : Node.Ready fixed start value made)
    (hdeeper : ∀ deeper, pass.walker.Descends frame deeper →
      pass.Tours fixed effects depth deeper) :
    Option.Rel (fun one run => one.map Node.toJson = run.1.map Node.toJson)
      (tourSlot (pass.actOn fixed effects) (tour (pass.actOn fixed effects) depth)
        (frame.path ++ [seg]) value)
      (result (pass.walker.visitSlot pass.walker.rebuildFully frame.path frame.branches seg made)
        start) := by
  have hliteral := hnames.literalAt.of_leads hframe
  have hat := hframe.at?_concat seg
  rw [Walker.visitSlot]
  cases hbranch : Trie.branch? frame.branches (.literal seg) with
  | none =>
      rw [hbranch] at hat
      have hnothing := hnames.eq_nil_of_none hat
      have hhere : effects (frame.path ++ [seg]) = [] := by simpa using hnothing []
      rw [Walker.settle_of_branch?_none pass.byName_walker hliteral hbranch, pure_bind,
        tourSlot_of_stay (actOn_of_nil hhere),
        tour_stay depth _ value fun rest _ => actOn_of_nil (hnothing rest)]
      exact .some (congrArg some hready.toJson_eq)
  | some trie =>
      rw [hbranch] at hat
      have hvalues : effects (frame.path ++ [seg]) = trie.values := by
        rw [hnames.values, hat, Option.getD_some]
      rw [Walker.settle_of_branch? pass.byName_walker hliteral hbranch, actAll_eq, bind_assoc,
        result_bind, ← hvalues, tourSlot]
      refine rel_bind (rel_actOn hsound _ hready hstart) fun {outcome run} _ hrun hrel => ?_
      obtain ⟨current, after⟩ := run
      rw [pure_bind]
      cases hrel with
      | none => exact .some rfl
      | @some one other hone =>
          by_cases hbelow : trie.branches = []
          · have hnothing : ∀ rest, rest ≠ [] → pass.actOn fixed effects
                (frame.path ++ [seg] ++ rest) = stay :=
              fun rest hrest => actOn_of_nil (hnames.eq_nil_of_branches hat hbelow hrest)
            simp only [hbelow, List.isEmpty_nil, if_true]
            rw [tour_stay depth _ one hnothing]
            exact .some (congrArg some hone.toJson_eq)
          · simp only [List.isEmpty_iff, if_neg hbelow]
            have hsettle : (pass.walker.settle (frame.path ++ [seg]) seg frame.branches
                (some made)).run start = .ok ((some other, trie.branches), after) := by
              rw [Walker.settle_of_branch? pass.byName_walker hliteral hbranch, actAll_eq, ← hvalues]
              exact run_bind_ok.mpr ⟨_, _, result_eq_some.mp hrun, rfl⟩
            rw [← map_eq_pure_bind, result_map]
            refine rel_map (hdeeper _ (.mk hvisit hsettle hbelow) one hone) fun hsame => ?_
            exact congrArg some hsame

end Pass

/-! ### Containers -/

namespace Walker

variable {visit : Seg → Node → Build (Option Node)}

/-- An array without nulls that lost no item is as it was. -/
theorem compact_map_some {items : List Node} (h : ∀ item ∈ items, item.isNull = false) :
    compact (items.map some) = items := by
  have hholes : (items.map some).any isHole = false := by
    rw [List.any_eq_false]
    intro slot hslot
    obtain ⟨item, hitem, rfl⟩ := List.mem_map.mp hslot
    rw [isHole, h item hitem]
    exact Bool.false_ne_true
  unfold compact
  rw [hholes, if_neg Bool.false_ne_true, List.filterMap_map]
  exact List.filterMap_some

end Walker

namespace Pass

variable {pass : Pass} {fixed : Label} {effects : Path → List Effect} {top : Trie Effect}

/-- **A walk along keys does what the tour of its effects does.** -/
theorem tours_of_leads (hsound : pass.Sound fixed effects) (hnames : top.Names effects)
    {depth : Nat} :
    ∀ {frame : Frame Effect}, Trie.branchesHeight frame.branches < depth → top.Leads frame →
      pass.walker.MeetsNoNulls frame → fixed ≤ frame.label →
      pass.Tours fixed effects depth frame := by
  induction depth with
  | zero => intro frame hheight; exact absurd hheight (Nat.not_lt_zero _)
  | succ depth ih =>
      intro frame hheight hframe hnulls hlabel value hready
      have hdeeper : ∀ deeper, pass.walker.Descends frame deeper →
          pass.Tours fixed effects depth deeper := by
        intro deeper hdescends
        have hleads := Walker.leads_of_descends pass.byName_walker hnames.literalAt hframe hdescends
        refine ih ?_ hleads (hnulls.of_descends hdescends) ?_
        · exact Nat.lt_of_lt_of_le hdescends.height_lt (Nat.le_of_lt_succ hheight)
        · exact Nat.le_trans hlabel (pass.fresh_walker.le_of_descends hdescends)
      obtain ⟨path, branches, node, label⟩ := frame
      obtain ⟨⟨R, hR, halike⟩, hbefore⟩ := hready
      rw [Walker.rebuildFully_eq]
      rcases Node.alike_cases halike with ⟨hnode, rfl⟩ |
        ⟨_, items, made, others, rfl, rfl, -, hitems⟩ |
        ⟨_, fields, made, others, rfl, rfl, -, hfields⟩
      · cases node with
        | arr label items => cases hnode
        | obj label fields => cases hnode
        | _ => exact .some rfl
      · have hkeyed := hnames.keyed_of_leads hframe
        have hslots : ∀ position item, pass.walker.visitSlot pass.walker.rebuildFully path branches
            (.index position) item = pure (some item) := by
          intro position item
          refine Walker.visitSlot_of_unmatched fun branch hbranch => ?_
          obtain ⟨name, hname⟩ := hkeyed.keys branch hbranch
          rw [hname]
          rfl
        have hfull := hnulls _ made others .refl rfl
        rw [Walker.rebuildSlots, Walker.visitItems_eq_pure hslots, pure_bind,
          Walker.compact_map_some hfull]
        exact .some halike.toJson_eq
      · rw [Walker.rebuildSlots, tour, result_bind, Option.map_eq_bind]
        refine rel_bind (Walker.rel_visitFields hfields ?_) fun {one run} _ _ hsame => ?_
        · intro name value child start hchild hvisited
          have hle : label ≤ start := pass.fresh_walker.le_of_visits hvisited
          have hold : child.Before start :=
            ((Node.inherited_before label).of_mem_slots hbefore hvisited.mem).mono hle
          exact rel_visitSlot hsound hnames hframe hvisited (Nat.le_trans hlabel hle)
            ⟨⟨R, hR, hchild⟩, hold⟩ hdeeper
        · refine .some ?_
          rw [Node.toJson_obj, Node.toJson_obj, hsame]

end Pass

end Reducer
