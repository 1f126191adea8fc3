/-
Where a walk fails.

A walk does nothing that can fail but to act on slots and to take labels, so if labels are
always to be had, a walk that fails has failed in one of the acts.  Which one is found by
following the walk down: of the slots of a frame one is visited that fails, and that fails
while it is settled or in the frame below it.  The way leads through frames that the walk
enters, so the act that fails is one that the walk runs, at the place it runs it, whatever
slots came before and whatever was done to them.
-/
import Reducer.Proofs.Walk.Runs

namespace Reducer

open Build

namespace Walker

variable {α : Type} {walker : Walker Build α}

/-! ### One slot -/

/-- Of values that are run one after the other, the first that fails is on its turn. -/
theorem actAll_error {path : Path} {values : List α} {current : Option Node} {label : Label}
    {fault : Fault} (h : (walker.actAll path values current).run label = .error fault) :
    ∃ value now moment, walker.Hands path values current label value now ∧
      (walker.act path value now).run moment = .error fault := by
  induction values generalizing current label with
  | nil => cases h
  | cons first rest ih =>
      rw [actAll] at h
      rcases run_bind_error.mp h with hfirst | ⟨next, between, hact, hrest⟩
      · exact ⟨first, current, label, .here, hfirst⟩
      · obtain ⟨value, now, moment, hhands, hfails⟩ := ih hrest
        exact ⟨value, now, moment, .later hact hhands, hfails⟩

/-- A slot that cannot be settled fails in a value that is run there. -/
theorem settle_error {path : Path} {seg : Seg} {branches : List (Step × Trie α)}
    {current : Option Node} {label : Label} {fault : Fault}
    (h : (walker.settle path seg branches current).run label = .error fault) :
    ∃ value now moment, walker.RunsIn path seg branches current label value now ∧
      (walker.act path value now).run moment = .error fault := by
  induction branches generalizing current label with
  | nil => cases h
  | cons branch rest ih =>
      obtain ⟨step, trie⟩ := branch
      rw [settle] at h
      cases hleads : walker.leads step (current.getD .null) seg with
      | false =>
          rw [hleads, if_neg Bool.false_ne_true] at h
          obtain ⟨value, now, moment, hruns, hfails⟩ := ih h
          exact ⟨value, now, moment, .skip hleads hruns, hfails⟩
      | true =>
          rw [hleads, if_pos rfl] at h
          rcases run_bind_error.mp h with hact | ⟨next, between, hact, hrest⟩
          · obtain ⟨value, now, moment, hhands, hfails⟩ := actAll_error hact
            exact ⟨value, now, moment, .here hleads hhands, hfails⟩
          · rcases run_bind_error.mp hrest with hsettle | ⟨_, _, _, hdone⟩
            · obtain ⟨value, now, moment, hruns, hfails⟩ := ih hsettle
              exact ⟨value, now, moment, .after hleads hact hruns, hfails⟩
            · cases hdone

/-- A visit that fails does so while the slot is settled, or further down. -/
theorem visitSlot_error {deeper : Path → List (Step × Trie α) → Node → Build Node} {path : Path}
    {branches : List (Step × Trie α)} {seg : Seg} {child : Node} {label : Label} {fault : Fault}
    (h : (walker.visitSlot deeper path branches seg child).run label = .error fault) :
    (walker.settle (path ++ [seg]) seg branches (some child)).run label = .error fault ∨
      ∃ value below between,
        (walker.settle (path ++ [seg]) seg branches (some child)).run label =
          .ok ((some value, below), between) ∧
        below ≠ [] ∧ (deeper (path ++ [seg]) below value).run between = .error fault := by
  rw [visitSlot] at h
  refine (run_bind_error.mp h).imp_right ?_
  rintro ⟨⟨current, below⟩, between, hsettle, hrest⟩
  cases current with
  | none => cases hrest
  | some value =>
      by_cases hbelow : below = []
      · simp only [hbelow, List.isEmpty_nil, if_true] at hrest
        cases hrest
      · simp only [List.isEmpty_iff, if_neg hbelow] at hrest
        rcases run_bind_error.mp hrest with hdeeper | ⟨_, _, _, hdone⟩
        · exact ⟨value, below, between, hsettle, hbelow, hdeeper⟩
        · cases hdone

/-! ### One container -/

/-- A loop over slots fails in one that it visits. -/
theorem visitAll_error {visit : Seg → Node → Build (Option Node)} {slots : List (Seg × Node)}
    {label : Label} {fault : Fault} (h : (visitAll visit slots).run label = .error fault) :
    ∃ seg child start, VisitedAt visit slots label (seg, child) start ∧
      (visit seg child).run start = .error fault := by
  induction slots generalizing label with
  | nil => cases h
  | cons slot rest ih =>
      obtain ⟨seg, child⟩ := slot
      rw [visitAll] at h
      rcases run_bind_error.mp h with hfirst | ⟨outcome, between, hfirst, hrest⟩
      · exact ⟨seg, child, label, .head, hfirst⟩
      · rcases run_bind_error.mp hrest with hlater | ⟨_, _, _, hdone⟩
        · obtain ⟨other, found, start, hvisited, hfails⟩ := ih hlater
          exact ⟨other, found, start, .cons hfirst hvisited, hfails⟩
        · cases hdone

/-- A frame fails in a slot that it visits. -/
theorem rebuildFrame_error (hlabel : ∀ label fault, walker.label.run label ≠ .error fault)
    {frame : Frame α} {fault : Fault} (h : walker.rebuildFrame frame = .error fault) :
    ∃ seg child start, walker.Visits frame seg child start ∧
      (walker.visitSlot walker.rebuildFully frame.path frame.branches seg child).run start =
        .error fault := by
  rw [rebuildFrame, rebuildFully_eq, rebuildSlots_eq] at h
  split at h
  · rcases run_bind_error.mp h with hvisits | ⟨outcomes, between, -, hrest⟩
    · exact visitAll_error hvisits
    · rcases run_bind_error.mp hrest with hnone | ⟨_, _, _, hdone⟩
      · exact absurd hnone (hlabel between fault)
      · cases hdone
  · cases h

/-! ### The whole walk -/

variable {start : Frame α} {place : Path} {value : α} {now : Option Node}

theorem Runs.of_descends {next : Frame α} (hstart : walker.Descends start next)
    (h : walker.Runs next place value now) : walker.Runs start place value now := by
  obtain ⟨frame, seg, child, label, henters, hrest⟩ := h
  exact ⟨frame, seg, child, label, .head hstart henters, hrest⟩

/-- **A walk that fails has failed in a value that it runs**, at the place where it runs it. -/
theorem exists_runs_of_error (hlabel : ∀ label fault, walker.label.run label ≠ .error fault)
    {fault : Fault} (h : walker.rebuildFrame start = .error fault) :
    ∃ place value now moment, walker.Runs start place value now ∧
      (walker.act place value now).run moment = .error fault := by
  -- The branches of a frame are lower than those of the frame above.
  induction hheight : Trie.branchesHeight start.branches using Nat.strong_induction_on
    generalizing start with
  | _ height ih =>
      obtain ⟨seg, child, label, hvisit, hfails⟩ := rebuildFrame_error hlabel h
      rcases visitSlot_error hfails with hsettle | ⟨value, below, between, hsettle, hbelow, hdeeper⟩
      · obtain ⟨value, now, moment, hruns, hact⟩ := settle_error hsettle
        exact ⟨_, value, now, moment, ⟨start, seg, child, label, .refl, hvisit, rfl, hruns⟩, hact⟩
      · have hdown : walker.Descends start ⟨start.path ++ [seg], below, value, between⟩ :=
          .mk hvisit hsettle hbelow
        have hfailed : walker.rebuildFrame ⟨start.path ++ [seg], below, value, between⟩ =
          .error fault := hdeeper
        obtain ⟨place, value, now, moment, hruns, hact⟩ :=
          ih _ (hheight ▸ hdown.height_lt) hfailed rfl
        exact ⟨place, value, now, moment, hruns.of_descends hdown, hact⟩

end Walker

end Reducer
