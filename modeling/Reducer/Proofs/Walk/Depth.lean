/-
How deep a walk goes.

A walk goes down into values that were put there on the way, and those may be deeper and
wider than anything that was there before, so nothing of the tree bounds it.  But where the
walk goes a slot down, its branches get lower, from however many tries they were joined.  So
the depth of a frame and the height of its branches never add up to more than at the start,
`Enters.depth_le`, and that is all there is to it.

`rebuild` counts levels because its tree is no measure.  `Uncounted` is the equation of the
walk with the count left out.  Such an equation may have no solution, or many, if following it
does not come to an end; this one has just one, `uncounted_iff`.

Where nothing is left to go down, a slot keeps the value that its effects have left there.  The
containers around it are rebuilt then, one around the other, and the value moves with them; it
is the same node, `LeftWith.trail`.
-/
import Reducer.Proofs.Walk.Moving

namespace Reducer

open Build

namespace Trie

variable {α : Type}

/-! ### The height of a trie that was filled -/

/-- The length of the longest list of steps. -/
def longest (entries : List (List Step × α)) : Nat :=
  entries.foldr (fun entry length => max entry.1.length length) 0

theorem branchesHeight_graft (branches : List (Step × Trie α)) (step : Step)
    {change : Trie α → Trie α} {length : Nat}
    (h : ∀ trie, (change trie).height = max trie.height length) :
    branchesHeight (graft branches step change) = max (branchesHeight branches) (length + 1) := by
  induction branches with
  | nil =>
      have hempty : (empty : Trie α).height = 0 := rfl
      show max ((change empty).height + 1) 0 = max 0 (length + 1)
      rw [h, hempty]
      omega
  | cons branch rest ih =>
      obtain ⟨other, trie⟩ := branch
      rw [graft]
      split
      · rw [branchesHeight, branchesHeight, h]
        omega
      · rw [branchesHeight, branchesHeight, ih]
        omega

theorem height_insert (steps : List Step) (value : α) :
    ∀ trie : Trie α, (trie.insert steps value).height = max trie.height steps.length := by
  induction steps with
  | nil =>
      rintro ⟨values, branches⟩
      rw [insert, height, height, List.length_nil, Nat.max_zero]
  | cons step rest ih =>
      rintro ⟨values, branches⟩
      rw [insert, height, height, branchesHeight_graft branches step ih, List.length_cons]

theorem height_insertAll (entries : List (List Step × α)) :
    ∀ trie : Trie α, (trie.insertAll entries).height = max trie.height (longest entries) := by
  induction entries with
  | nil =>
      intro trie
      exact (Nat.max_zero _).symm
  | cons entry rest ih =>
      intro trie
      show ((trie.insert entry.1 entry.2).insertAll rest).height =
        max trie.height (max entry.1.length (longest rest))
      rw [ih, height_insert, Nat.max_assoc]

end Trie

namespace Walker

variable {α : Type} {walker : Walker Build α}

/-! ### Without a count -/

/-- A rebuild that goes on below each slot as it began. -/
def Uncounted (walker : Walker Build α) (work : Path → List (Step × Trie α) → Node → Build Node) :
    Prop :=
  ∀ path branches node,
    work path branches node = walker.rebuildSlots (walker.visitSlot work path branches) node

theorem Uncounted.eq {work : Path → List (Step × Trie α) → Node → Build Node}
    (h : walker.Uncounted work) : work = walker.rebuildFully := by
  -- The tree is no measure, so the induction is on a bound for the height of the branches.
  have hlower : ∀ height path branches node, Trie.branchesHeight branches < height →
      work path branches node = walker.rebuildFully path branches node := by
    intro height
    induction height with
    | zero =>
        intro path branches node hheight
        exact absurd hheight (Nat.not_lt_zero _)
    | succ height ih =>
        intro path branches node hheight
        rw [h, rebuildFully_eq, walker.visitSlot_congr]
        intro path below node hbelow
        exact ih path below node (Nat.lt_of_lt_of_le hbelow (Nat.le_of_lt_succ hheight))
  funext path branches node
  exact hlower _ path branches node (Nat.lt_succ_self _)

/-- **The equation of the walk has one solution**, which is the one that counts levels. -/
theorem uncounted_iff {work : Path → List (Step × Trie α) → Node → Build Node} :
    walker.Uncounted work ↔ work = walker.rebuildFully := by
  refine ⟨Uncounted.eq, ?_⟩
  rintro rfl
  exact walker.rebuildFully_eq

/-- Whatever the slots hold, going down comes to an end. -/
theorem wellFounded_descends :
    WellFounded fun deeper frame : Frame α => walker.Descends frame deeper :=
  Subrelation.wf Descends.height_lt
    (measure fun frame : Frame α => Trie.branchesHeight frame.branches).wf

/-! ### Depth and height -/

variable {start frame : Frame α} {place : Path}

/-- **What a frame is deeper than the start, its branches are lower, at least.** -/
theorem Enters.depth_le (h : walker.Enters start frame) :
    frame.path.length + Trie.branchesHeight frame.branches ≤
      start.path.length + Trie.branchesHeight start.branches := by
  induction h with
  | refl => exact Nat.le_refl _
  | tail _ hlast ih =>
      have hheight := hlast.height_lt
      obtain ⟨seg, hpath⟩ := hlast.path_eq
      rw [hpath, List.length_append, List.length_singleton]
      omega

/-- Below the root, only frames that are less deep than the trie is high are rebuilt. -/
theorem Enters.depth_lt (h : walker.Enters start frame) (hroot : start.path = []) :
    frame.path = [] ∨ frame.path.length < Trie.branchesHeight start.branches := by
  have hdepth := h.depth_le
  rw [hroot, List.length_nil, Nat.zero_add] at hdepth
  cases h with
  | refl => exact Or.inl hroot
  | tail _ hlast =>
      obtain ⟨_, _, hbelow⟩ := hlast
      have hpositive := Trie.branchesHeight_pos hbelow
      dsimp only at hdepth ⊢
      exact Or.inr (by omega)

theorem LeadsIn.length_le {branch : Step × Trie α} (h : walker.LeadsIn start place branch)
    (hroot : start.path = []) : place.length ≤ Trie.branchesHeight start.branches := by
  obtain ⟨frame, seg, child, label, henters, -, rfl, hleads⟩ := h
  have hdepth := henters.depth_le
  have hbranch := Trie.height_lt_of_mem hleads.mem
  rw [hroot, List.length_nil] at hdepth
  rw [List.length_append, List.length_singleton]
  omega

/-! ### What a slot is left with -/

/-- A slot of a frame is left with a value by what was run there. -/
def LeftWith (walker : Walker Build α) (frame : Frame α) (seg : Seg) (value : Node)
    (below : List (Step × Trie α)) : Prop :=
  ∃ child label after, walker.Visits frame seg child label ∧
    (walker.settle (frame.path ++ [seg]) seg frame.branches (some child)).run label =
      .ok ((some value, below), after)

/-- As deep as the trie is high, no branch is left. -/
theorem LeftWith.below_eq_nil {seg : Seg} {value : Node} {below : List (Step × Trie α)}
    (h : walker.LeftWith frame seg value below) (henters : walker.Enters start frame)
    (hroot : start.path = [])
    (hdeep : Trie.branchesHeight start.branches ≤ (frame.path ++ [seg]).length) : below = [] := by
  obtain ⟨child, label, after, hvisit, hsettle⟩ := h
  by_contra hbelow
  have hlast : walker.Descends frame ⟨frame.path ++ [seg], below, value, after⟩ :=
    .mk hvisit hsettle hbelow
  rcases Enters.depth_lt (Relation.ReflTransGen.tail henters hlast) hroot with hpath | hless
  · exact List.concat_ne_nil _ _ hpath
  · exact absurd hdeep (Nat.not_le_of_lt hless)

/-- **A value that nothing is left to do about is in the result, the very node.** -/
theorem LeftWith.trail {seg : Seg} {value next : Node} {after : Label}
    (h : walker.LeftWith frame seg value []) (henters : walker.Enters start frame)
    (hroot : start.path = []) (hstart : walker.rebuildFrame start = .ok (next, after))
    (hvalue : value.isNull = false ∨ ∃ name, seg = .key name) :
    ∃ moved, next.Moved (frame.path ++ [seg]) moved value := by
  obtain ⟨child, label, between, hvisit, hsettle⟩ := h
  obtain ⟨rebuilt, ending, moved, hframe, htrail⟩ := henters.trail hroot hstart hvisit.isContainer
  obtain ⟨outcomes, _, new, hvisits, -, rfl⟩ := rebuildFrame_ok hvisit.isContainer hframe
  obtain ⟨outcome, last, hslot, hmem⟩ := visit_of_visitedAt hvisits hvisit
  obtain ⟨current, below, _, hother, hrest⟩ := visitSlot_ok hslot
  rw [hsettle] at hother
  cases hother
  obtain ⟨-, rfl, -⟩ | ⟨_, _, -, hbelow, -⟩ := hrest
  · obtain ⟨other, hmoves, hslots⟩ := exists_slot_refill new hmem hvalue
    exact ⟨moved ++ [other], htrail.snoc hslots hmoves⟩
  · exact absurd rfl hbelow

/-! ### Walks within a length -/

/-- A walk that comes to its end within so many steps from the root, whatever it meets there. -/
structure Within (walker : Walker Build α) (start : Frame α) (longest : Nat) : Prop where
  /-- Going down comes to an end. -/
  ends : Acc (fun deeper frame => walker.Descends frame deeper) start
  /-- The levels that are counted do not run out: any more of them give the same rebuild. -/
  levels : ∀ levels, longest < levels →
    walker.rebuild levels start.path start.branches start.node =
      walker.rebuildFully start.path start.branches start.node
  /-- Nothing is run further down. -/
  runs : ∀ place value now, walker.Runs start place value now → place.length ≤ longest
  /-- Nothing but the root is rebuilt there or further down. -/
  rebuilds : ∀ frame, walker.Enters start frame →
    frame.path = [] ∨ frame.path.length < longest
  /-- What a slot there is left with goes into the result, unless it is a null in an array. -/
  kept : ∀ frame seg value below, walker.Enters start frame →
    walker.LeftWith frame seg value below → longest ≤ (frame.path ++ [seg]).length →
      below = [] ∧ ∀ next after, walker.rebuildFrame start = .ok (next, after) →
        (value.isNull = false ∨ ∃ name, seg = .key name) →
          ∃ moved, next.Moved (frame.path ++ [seg]) moved value ∧
            (next.Distinct → next.at? moved = some value)

/-- **A walk keeps within the height of its trie.** -/
theorem within_height (hroot : start.path = []) :
    walker.Within start (Trie.branchesHeight start.branches) := by
  refine ⟨wellFounded_descends.apply start, fun levels hlevels => ?_,
    fun place value now hruns => ?_, fun frame henters => henters.depth_lt hroot,
    fun frame seg value below henters hleft hdeep => ?_⟩
  · exact walker.rebuild_of_height_lt _ _ _ _ _ hlevels (Nat.lt_succ_self _)
  · obtain ⟨branch, hleads, -⟩ := hruns.leadsIn
    exact hleads.length_le hroot
  · obtain rfl := hleft.below_eq_nil henters hroot hdeep
    refine ⟨rfl, fun next after hstart hvalue => ?_⟩
    obtain ⟨moved, htrail⟩ := hleft.trail henters hroot hstart hvalue
    exact ⟨moved, htrail, htrail.at?_eq⟩

end Walker

end Reducer
