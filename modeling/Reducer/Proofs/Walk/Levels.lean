/-
Enough levels, and no more.

`rebuild` counts the levels it may still go down, and a walk starts with as many as
its trie is high.  What is shown here is that the count never decides anything: the
branches joined for the next level come from tries one step further down, so their
height is smaller, and any number of levels above the height gives the same rebuild.

`rebuildFully` is a rebuild with just enough levels.  It satisfies the equation of
the walk without counting, `rebuildFully_eq`, and this is the one later proofs use.
-/
import Reducer.Proofs.Walk.Settle

namespace Reducer

namespace Trie

variable {α : Type}

/-- Branches are at most `k` high just when every trie among them is lower. -/
theorem branchesHeight_le_iff {branches : List (Step × Trie α)} {k : Nat} :
    branchesHeight branches ≤ k ↔ ∀ branch ∈ branches, height branch.2 + 1 ≤ k := by
  induction branches with
  | nil => simp [branchesHeight]
  | cons branch rest ih =>
      obtain ⟨step, trie⟩ := branch
      rw [branchesHeight, Nat.max_le, ih, List.forall_mem_cons]

theorem height_lt_of_mem {branches : List (Step × Trie α)} {branch : Step × Trie α}
    (h : branch ∈ branches) : height branch.2 < branchesHeight branches :=
  branchesHeight_le_iff.mp (Nat.le_refl _) branch h

theorem branchesHeight_pos {branches : List (Step × Trie α)} (h : branches ≠ []) :
    0 < branchesHeight branches := by
  obtain ⟨branch, hbranch⟩ := List.exists_mem_of_ne_nil _ h
  exact Nat.lt_of_le_of_lt (Nat.zero_le _) (height_lt_of_mem hbranch)

theorem height_eq (trie : Trie α) : height trie = branchesHeight trie.branches := by
  cases trie with
  | node values branches => rw [height, Trie.branches]

end Trie

namespace Walker

open Build

variable {α : Type} (walker : Walker Build α)

/-! ### The branches of the next level -/

/-- The branches of the next level, if there are any, are lower than those of this one. -/
theorem height_below_of_settle {path : Path} {seg : Seg} {branches below : List (Step × Trie α)}
    {current outcome : Option Node} {label after : Label}
    (h : (walker.settle path seg branches current).run label = .ok ((outcome, below), after))
    (hbelow : below ≠ []) : Trie.branchesHeight below < Trie.branchesHeight branches := by
  have hpositive : 0 < Trie.branchesHeight branches := by
    obtain ⟨branch, hbranch⟩ := List.exists_mem_of_ne_nil below hbelow
    obtain ⟨parent, hparent, -⟩ := leadsTo_of_mem_below h branch hbranch
    exact Trie.branchesHeight_pos (List.ne_nil_of_mem hparent.mem)
  refine Nat.lt_of_le_of_lt (Trie.branchesHeight_le_iff.mpr fun branch hbranch => ?_)
    (Nat.sub_one_lt_of_lt hpositive)
  obtain ⟨parent, hparent, hmem⟩ := leadsTo_of_mem_below h branch hbranch
  have hchild := Trie.height_lt_of_mem hmem
  have hparentHeight := Trie.height_lt_of_mem hparent.mem
  rw [Trie.height_eq parent.2] at hparentHeight
  omega

/-! ### The count decides nothing -/

/-- A slot is visited alike by two ways down that agree on lower branches. -/
theorem visitSlot_congr {deeper other : Path → List (Step × Trie α) → Node → Build Node}
    {path : Path} {branches : List (Step × Trie α)}
    (h : ∀ path below node, Trie.branchesHeight below < Trie.branchesHeight branches →
      deeper path below node = other path below node) :
    walker.visitSlot deeper path branches = walker.visitSlot other path branches := by
  funext seg child
  refine ext_run fun label => ?_
  unfold visitSlot
  rw [run_bind, run_bind]
  cases hsettle : (walker.settle (path ++ [seg]) seg branches (some child)).run label with
  | error fault => rfl
  | ok result =>
      obtain ⟨⟨current, below⟩, after⟩ := result
      cases current with
      | none => rfl
      | some value =>
          by_cases hbelow : below = []
          · simp [hbelow]
          · simp only [List.isEmpty_iff, if_neg hbelow]
            rw [h _ below value (walker.height_below_of_settle hsettle hbelow)]

/-- **Levels above the height of the branches change nothing.** -/
theorem rebuild_of_height_lt :
    ∀ (levels others : Nat) (path : Path) (branches : List (Step × Trie α)) (node : Node),
      Trie.branchesHeight branches < levels → Trie.branchesHeight branches < others →
      walker.rebuild levels path branches node = walker.rebuild others path branches node := by
  intro levels
  induction levels with
  | zero => intro others path branches node h; omega
  | succ levels ih =>
      intro others path branches node h hothers
      cases others with
      | zero => omega
      | succ others =>
          rw [rebuild, rebuild, walker.visitSlot_congr]
          intro path below node hbelow
          exact ih others path below node (by omega) (by omega)

/-- A rebuild with as many levels as the branches are high, and one more. -/
def rebuildFully (path : Path) (branches : List (Step × Trie α)) (node : Node) : Build Node :=
  walker.rebuild (Trie.branchesHeight branches + 1) path branches node

/-- A full rebuild settles every slot and goes on with a full rebuild. -/
theorem rebuildFully_eq (path : Path) (branches : List (Step × Trie α)) (node : Node) :
    walker.rebuildFully path branches node =
      walker.rebuildSlots (walker.visitSlot walker.rebuildFully path branches) node := by
  rw [rebuildFully, rebuild, walker.visitSlot_congr]
  intro path below node hbelow
  exact walker.rebuild_of_height_lt _ _ path below node hbelow (Nat.lt_succ_self _)

/-- A walk is a full rebuild of the root along what the trie branches into. -/
theorem walk_eq (trie : Trie α) (root : Node) :
    walker.walk trie root = walker.rebuildFully [] trie.branches root := by
  rw [walk, rebuildFully, Trie.height_eq]

end Walker

end Reducer
