/-
Which branches come to a slot.

A branch is tested against what the slot holds when its turn comes, and that may
have been changed by the branches before it.  `LeadsTo` says that a branch leads to
the slot at its turn; the branches of the next level are those below such branches.

As long as no branch that leads there holds a value, nothing is changed, every test
sees the child that was there, and the turns can be read off without running any.
-/
import Reducer.Proofs.Build
import Reducer.Walk

namespace Reducer.Walker

open Build

variable {α : Type} (walker : Walker Build α)

/-- At its turn, a branch leads to the slot at `path`, which holds `current` at first. -/
inductive LeadsTo (path : Path) (seg : Seg) :
    List (Step × Trie α) → Option Node → Label → Step × Trie α → Prop
  /-- It is the first, and leads there. -/
  | here {step trie rest current label}
      (hleads : walker.leads step (current.getD .null) seg = true) :
      LeadsTo path seg ((step, trie) :: rest) current label (step, trie)
  /-- It comes after one that does not lead there. -/
  | skip {step trie rest current label branch}
      (hleads : walker.leads step (current.getD .null) seg = false)
      (hrest : LeadsTo path seg rest current label branch) :
      LeadsTo path seg ((step, trie) :: rest) current label branch
  /-- It comes after one that leads there and has acted. -/
  | after {step trie rest current next label between branch}
      (hleads : walker.leads step (current.getD .null) seg = true)
      (hact : (walker.actAll path trie.values current).run label = .ok (next, between))
      (hrest : LeadsTo path seg rest next between branch) :
      LeadsTo path seg ((step, trie) :: rest) current label branch

variable {walker}

theorem LeadsTo.mem {path : Path} {seg : Seg} {branches : List (Step × Trie α)}
    {current : Option Node} {label : Label} {branch : Step × Trie α}
    (h : walker.LeadsTo path seg branches current label branch) : branch ∈ branches := by
  induction h with
  | here => exact List.mem_cons_self
  | skip _ _ ih => exact List.mem_cons_of_mem _ ih
  | after _ _ _ ih => exact List.mem_cons_of_mem _ ih

/-- Every branch of the next level lies below one that leads to the slot. -/
theorem leadsTo_of_mem_below {path : Path} {seg : Seg} :
    ∀ {branches below : List (Step × Trie α)} {current outcome : Option Node}
      {label after : Label},
      (walker.settle path seg branches current).run label = .ok ((outcome, below), after) →
      ∀ branch ∈ below, ∃ parent, walker.LeadsTo path seg branches current label parent ∧
        branch ∈ parent.2.branches := by
  intro branches
  induction branches with
  | nil =>
      intro below current outcome label after h branch hbranch
      cases h
      cases hbranch
  | cons first rest ih =>
      intro below current outcome label after h branch hbranch
      obtain ⟨step, trie⟩ := first
      rw [settle] at h
      split at h
      · rename_i hleads
        obtain ⟨next, between, hact, h⟩ := run_bind_ok.mp h
        obtain ⟨⟨last, deeper⟩, ending, hrest, h⟩ := run_bind_ok.mp h
        cases h
        rcases List.mem_append.mp hbranch with hhere | hlater
        · exact ⟨(step, trie), .here hleads, hhere⟩
        · obtain ⟨parent, hparent, hmem⟩ := ih hrest branch hlater
          exact ⟨parent, .after hleads hact hparent, hmem⟩
      · rename_i hleads
        obtain ⟨parent, hparent, hmem⟩ := ih h branch hbranch
        exact ⟨parent, .skip (by simpa using hleads) hparent, hmem⟩

/-! ### While nothing is changed -/

/-- No branch leads to the slot of this child. -/
def Unmatched (walker : Walker Build α) (branches : List (Step × Trie α)) (seg : Seg)
    (child : Node) : Prop :=
  ∀ branch ∈ branches, walker.leads branch.1 child seg = false

/-- Only branches without values lead to the slot of this child. -/
def Quiet (walker : Walker Build α) (branches : List (Step × Trie α)) (seg : Seg)
    (child : Node) : Prop :=
  ∀ branch ∈ branches, walker.leads branch.1 child seg = true → branch.2.values = []

/-- The branches one step further down, by tests that all see this child. -/
def below (walker : Walker Build α) (branches : List (Step × Trie α)) (seg : Seg)
    (child : Node) : List (Step × Trie α) :=
  (branches.filter fun branch => walker.leads branch.1 child seg).flatMap (·.2.branches)

theorem Unmatched.quiet {branches : List (Step × Trie α)} {seg : Seg} {child : Node}
    (h : walker.Unmatched branches seg child) : walker.Quiet branches seg child := by
  intro branch hbranch hleads
  rw [h branch hbranch] at hleads
  cases hleads

theorem below_of_unmatched {branches : List (Step × Trie α)} {seg : Seg} {child : Node}
    (h : walker.Unmatched branches seg child) : walker.below branches seg child = [] := by
  rw [below, List.filter_eq_nil_iff.mpr fun branch hbranch => by simp [h branch hbranch]]
  rfl

/-- A slot that only branches without values lead to keeps its child. -/
theorem settle_of_quiet {path : Path} {seg : Seg} {child : Node} :
    ∀ {branches : List (Step × Trie α)}, walker.Quiet branches seg child →
      walker.settle path seg branches (some child) =
        pure (some child, walker.below branches seg child) := by
  intro branches
  induction branches with
  | nil => intro _; rfl
  | cons first rest ih =>
      intro hquiet
      obtain ⟨step, trie⟩ := first
      have hrest := ih fun branch hbranch => hquiet branch (List.mem_cons_of_mem _ hbranch)
      rw [settle]
      by_cases hleads : walker.leads step child seg = true
      · have hvalues : trie.values = [] := hquiet (step, trie) List.mem_cons_self hleads
        simp [hleads, hvalues, actAll, hrest, below]
      · simp [hleads, hrest, below]

/-- Where all branches that lead to the slot at their turn are empty, all tests see the child. -/
theorem quiet_of_leadsTo {path : Path} {seg : Seg} {child : Node} :
    ∀ {branches : List (Step × Trie α)} (label : Label),
      (∀ branch, walker.LeadsTo path seg branches (some child) label branch →
        branch.2.values = []) →
      walker.Quiet branches seg child := by
  intro branches
  induction branches with
  | nil => intro label _ branch hbranch; cases hbranch
  | cons first rest ih =>
      intro label h
      obtain ⟨step, trie⟩ := first
      have hrest : walker.Quiet rest seg child := by
        refine ih label fun branch hbranch => h branch ?_
        by_cases hleads : walker.leads step child seg = true
        · refine .after hleads ?_ hbranch
          rw [h (step, trie) (.here hleads)]
          rfl
        · exact .skip (by simpa using hleads) hbranch
      intro branch hbranch hleads
      rcases List.mem_cons.mp hbranch with rfl | hlater
      · exact h _ (.here hleads)
      · exact hrest branch hlater hleads

/-- Where nothing leads to the slot at its turn, nothing leads to it at all. -/
theorem unmatched_of_leadsTo {path : Path} {seg : Seg} {child : Node}
    {branches : List (Step × Trie α)} {label : Label}
    (h : ∀ branch, ¬walker.LeadsTo path seg branches (some child) label branch) :
    walker.Unmatched branches seg child := by
  induction branches with
  | nil => intro branch hbranch; cases hbranch
  | cons first rest ih =>
      obtain ⟨step, trie⟩ := first
      have hleads : walker.leads step child seg = false :=
        Bool.eq_false_iff.mpr fun hleads => h (step, trie) (.here hleads)
      have hrest := ih fun branch hbranch => h branch (.skip hleads hbranch)
      intro branch hbranch
      rcases List.mem_cons.mp hbranch with rfl | hlater
      · exact hleads
      · exact hrest branch hlater

end Reducer.Walker
