/-
Walks that read their values through a function.

A trie may hold more than a walk needs to know: besides an effect, say, where that effect
was declared.  `Trie.map` forgets what is not needed, `Walker.comap` does not look at it,
and the walk is the same either way.  So what a reduction does can be told in terms of
values that say more than the effects alone, and that no two places of a trie share.
-/
import Reducer.Proofs.Trie
import Reducer.Proofs.Walk.Levels

namespace Reducer

variable {α β : Type} (f : β → α)

namespace Trie

mutual

/-- The trie with every value replaced. -/
def map : Trie β → Trie α
  | node values branches => node (values.map f) (mapBranches branches)
termination_by structural trie => trie

/-- The branches with every value in them replaced. -/
def mapBranches : List (Step × Trie β) → List (Step × Trie α)
  | [] => []
  | (step, trie) :: rest => (step, map trie) :: mapBranches rest
termination_by structural branches => branches

end

@[simp] theorem values_map (trie : Trie β) : (trie.map f).values = trie.values.map f := by
  cases trie
  rfl

@[simp] theorem branches_map (trie : Trie β) :
    (trie.map f).branches = mapBranches f trie.branches := by
  cases trie
  rfl

@[simp] theorem map_empty : (empty : Trie β).map f = empty := rfl

theorem mapBranches_append (first second : List (Step × Trie β)) :
    mapBranches f (first ++ second) = mapBranches f first ++ mapBranches f second := by
  induction first with
  | nil => rfl
  | cons branch rest ih => rw [List.cons_append, mapBranches, ih, mapBranches, List.cons_append]

@[simp] theorem isEmpty_mapBranches (branches : List (Step × Trie β)) :
    (mapBranches f branches).isEmpty = branches.isEmpty := by
  cases branches <;> rfl

theorem branchesHeight_mapBranches (branches : List (Step × Trie β)) :
    branchesHeight (mapBranches f branches) = branchesHeight branches := by
  have hbranches : ∀ branches : List (Step × Trie β),
      (∀ branch ∈ branches, (branch.2.map f).height = branch.2.height) →
      branchesHeight (mapBranches f branches) = branchesHeight branches := by
    intro branches h
    induction branches with
    | nil => rfl
    | cons branch rest ih =>
        obtain ⟨hfirst, hrest⟩ := List.forall_mem_cons.mp h
        rw [mapBranches, branchesHeight, branchesHeight, hfirst, ih hrest]
  refine hbranches branches fun branch _ => ?_
  induction branch.2 using trieInduction with
  | node values branches ih =>
      rw [map, height, height]
      exact hbranches branches ih

theorem mapBranches_graft {change : Trie β → Trie β} {other : Trie α → Trie α}
    (h : ∀ trie, (change trie).map f = other (trie.map f)) (branches : List (Step × Trie β))
    (step : Step) :
    mapBranches f (graft branches step change) = graft (mapBranches f branches) step other := by
  induction branches with
  | nil => rw [graft, mapBranches, mapBranches, h, map_empty, mapBranches, graft]
  | cons branch rest ih =>
      rw [mapBranches, graft, graft]
      split
      · rw [mapBranches, h]
      · rw [mapBranches, ih]

theorem map_insert (steps : List Step) (value : β) (trie : Trie β) :
    (trie.insert steps value).map f = (trie.map f).insert steps (f value) := by
  induction steps generalizing trie with
  | nil =>
      cases trie
      rw [insert, map, map, insert, List.map_append, List.map_singleton]
  | cons step rest ih =>
      cases trie
      rw [insert, map, map, insert]
      exact congrArg _ (mapBranches_graft f (fun trie => ih trie) _ step)

/-- A trie of replaced values is filled with replaced values. -/
theorem map_insertAll (entries : List (List Step × β)) (trie : Trie β) :
    (trie.insertAll entries).map f =
      (trie.map f).insertAll (entries.map fun entry => (entry.1, f entry.2)) := by
  induction entries generalizing trie with
  | nil => rfl
  | cons entry rest ih =>
      show ((trie.insert entry.1 entry.2).insertAll rest).map f = _
      rw [ih, map_insert]
      rfl

end Trie

namespace Walker

/-- Acts with what the values stand for. -/
def comap {m : Type → Type} (walker : Walker m α) : Walker m β where
  leads := walker.leads
  act path value := walker.act path (f value)
  label := walker.label

variable (walker : Walker Build α)

theorem actAll_comap (path : Path) (values : List β) (current : Option Node) :
    (walker.comap f).actAll path values current = walker.actAll path (values.map f) current := by
  induction values generalizing current with
  | nil => rfl
  | cons value rest ih => exact bind_congr ih

theorem settle_comap (path : Path) (seg : Seg) (branches : List (Step × Trie β))
    (current : Option Node) :
    walker.settle path seg (Trie.mapBranches f branches) current =
      (fun outcome => (outcome.1, Trie.mapBranches f outcome.2)) <$>
        (walker.comap f).settle path seg branches current := by
  induction branches generalizing current with
  | nil => rfl
  | cons branch rest ih =>
      obtain ⟨step, trie⟩ := branch
      rw [Trie.mapBranches, settle, settle]
      show (if walker.leads step (current.getD .null) seg = true then _ else _) =
        _ <$> (if walker.leads step (current.getD .null) seg = true then _ else _)
      split
      · rw [actAll_comap, Trie.values_map, map_bind]
        refine bind_congr fun next => ?_
        rw [ih, bind_map_left, map_bind]
        refine bind_congr fun outcome => ?_
        rw [map_pure, Trie.mapBranches_append, Trie.branches_map]
      · exact ih current

theorem visitSlot_comap {deeper : Path → List (Step × Trie β) → Node → Build Node}
    {other : Path → List (Step × Trie α) → Node → Build Node}
    (h : ∀ path branches node, deeper path branches node =
      other path (Trie.mapBranches f branches) node)
    (path : Path) (branches : List (Step × Trie β)) :
    (walker.comap f).visitSlot deeper path branches =
      walker.visitSlot other path (Trie.mapBranches f branches) := by
  funext seg child
  rw [visitSlot, visitSlot, settle_comap, bind_map_left]
  refine bind_congr fun outcome => ?_
  obtain ⟨current, below⟩ := outcome
  cases current with
  | none => rfl
  | some value =>
      dsimp only
      rw [h, Trie.isEmpty_mapBranches]

/-- **A walk does not depend on what it does not read of the values.** -/
theorem rebuild_comap (levels : Nat) (path : Path) (branches : List (Step × Trie β))
    (node : Node) :
    (walker.comap f).rebuild levels path branches node =
      walker.rebuild levels path (Trie.mapBranches f branches) node := by
  induction levels generalizing path branches node with
  | zero => rfl
  | succ levels ih =>
      rw [rebuild, rebuild, visitSlot_comap f walker ih]
      cases node <;> rfl

theorem rebuildFully_comap (path : Path) (branches : List (Step × Trie β)) (node : Node) :
    (walker.comap f).rebuildFully path branches node =
      walker.rebuildFully path (Trie.mapBranches f branches) node := by
  rw [rebuildFully, rebuildFully, Trie.branchesHeight_mapBranches, rebuild_comap]

end Walker

end Reducer
