/-
What a walk runs.

`LeadsTo` and `LeadsIn` say which branches come to a slot.  The values on such a branch are
run there one after the other, each on what the ones before it have made of the slot.
`Runs` says that the turn of a value comes at a place, and what the slot holds then; whether
running it succeeds is left open.

A value lies at the end of its steps, so the walk got to it along them: `Led` follows the
trie and the tree at once, slot by slot.  Each of the steps led to its slot by what the slot
held at that moment.  As long as nothing was run on the way that was the child the tree had
there from the beginning, and the steps lead through the tree itself, `Led.trail`.
-/
import Reducer.Proofs.Trie
import Reducer.Proofs.Walk.Frames

namespace Reducer

open Build

namespace Node

/-- Down from a node, one step after the other leads to a slot of the tree, as it is. -/
inductive Trail {β : Type} (leads : β → Node → Seg → Prop) : Node → List β → Path → Node → Prop
  | nil {node} : Trail leads node [] [] node
  | cons {node step rest seg child path found} (hslot : (seg, child) ∈ node.slots)
      (hleads : leads step child seg) (hrest : Trail leads child rest path found) :
      Trail leads node (step :: rest) (seg :: path) found

variable {β : Type} {leads : β → Node → Seg → Prop} {node found child : Node} {steps : List β}
  {path : Path} {step : β} {seg : Seg}

theorem Trail.snoc (h : Trail leads node steps path found) (hslot : (seg, child) ∈ found.slots)
    (hleads : leads step child seg) :
    Trail leads node (steps ++ [step]) (path ++ [seg]) child := by
  induction h with
  | nil => exact .cons hslot hleads .nil
  | cons hfirst hstep _ ih => exact .cons hfirst hstep (ih hslot)

theorem Trail.at?_eq (h : Trail leads node steps path found) (hdistinct : node.Distinct) :
    node.at? path = some found := by
  induction h with
  | nil => rfl
  | cons hslot _ _ ih =>
      rw [at?, child?_of_mem_slots hdistinct hslot, Option.bind_some]
      exact ih (inherited_distinct.of_mem_slots hdistinct hslot)

theorem Trail.of_map {γ : Type} {f : γ → β} :
    ∀ {items : List γ} {node : Node} {path : Path}, Trail leads node (items.map f) path found →
      Trail (fun item => leads (f item)) node items path found := by
  intro items
  induction items with
  | nil =>
      rintro node path ⟨⟩
      exact .nil
  | cons item rest ih =>
      rintro node path ⟨⟩
      exact .cons ‹_› ‹_› (ih ‹_›)

end Node

namespace Walker

variable {α : Type} (walker : Walker Build α)

/-- Of values that are run one after the other, the turn of one comes, and the slot holds `now`. -/
inductive Hands (path : Path) : List α → Option Node → Label → α → Option Node → Prop
  /-- It is the first. -/
  | here {value rest current label} : Hands path (value :: rest) current label value current
  /-- It comes after one that has run. -/
  | later {first rest current next label between value now}
      (hact : (walker.act path first current).run label = .ok (next, between))
      (hrest : Hands path rest next between value now) :
      Hands path (first :: rest) current label value now

/-- Of branches that are tried on a slot, one leads there, and the turn of its value comes. -/
inductive RunsIn (path : Path) (seg : Seg) :
    List (Step × Trie α) → Option Node → Label → α → Option Node → Prop
  /-- The first leads there, and holds the value. -/
  | here {step trie rest current label value now}
      (hleads : walker.leads step (current.getD .null) seg = true)
      (hhands : walker.Hands path trie.values current label value now) :
      RunsIn path seg ((step, trie) :: rest) current label value now
  /-- It comes after one that does not lead there. -/
  | skip {step trie rest current label value now}
      (hleads : walker.leads step (current.getD .null) seg = false)
      (hrest : RunsIn path seg rest current label value now) :
      RunsIn path seg ((step, trie) :: rest) current label value now
  /-- It comes after one that leads there and has acted. -/
  | after {step trie rest current next label between value now}
      (hleads : walker.leads step (current.getD .null) seg = true)
      (hact : (walker.actAll path trie.values current).run label = .ok (next, between))
      (hrest : RunsIn path seg rest next between value now) :
      RunsIn path seg ((step, trie) :: rest) current label value now

/-- In the walk that begins at `start`, a value is run at a place whose slot holds `now`. -/
def Runs (start : Frame α) (place : Path) (value : α) (now : Option Node) : Prop :=
  ∃ frame seg child label, walker.Enters start frame ∧ walker.Visits frame seg child label ∧
    place = frame.path ++ [seg] ∧
    walker.RunsIn place seg frame.branches (some child) label value now

/--
The walk that begins at `start` is led along steps of a trie to a place: to each slot on the
way by the branch that the trie has at the steps up to there.
-/
inductive Led (start : Frame α) (top : Trie α) : List Step → Path → Prop
  | nil : Led start top [] start.path
  | snoc {steps path seg branch} (hfront : Led start top steps path)
      (hleads : walker.LeadsIn start (path ++ [seg]) branch)
      (hbranch : top.at? (steps ++ [branch.1]) = some branch.2) :
      Led start top (steps ++ [branch.1]) (path ++ [seg])

variable {walker}

/-! ### Runs and branches -/

theorem Hands.mem {path : Path} {values : List α} {current now : Option Node} {label : Label}
    {value : α} (h : walker.Hands path values current label value now) : value ∈ values := by
  induction h with
  | here => exact List.mem_cons_self
  | later _ _ ih => exact List.mem_cons_of_mem _ ih

/-- Where all values have run, the turn of each has come. -/
theorem hands_of_actAll {path : Path} {values : List α} {current outcome : Option Node}
    {label after : Label} (h : (walker.actAll path values current).run label = .ok (outcome, after))
    {value : α} (hvalue : value ∈ values) :
    ∃ now, walker.Hands path values current label value now := by
  induction values generalizing current label with
  | nil => cases hvalue
  | cons first rest ih =>
      rw [actAll] at h
      obtain ⟨next, between, hact, h⟩ := run_bind_ok.mp h
      rcases List.mem_cons.mp hvalue with rfl | hlater
      · exact ⟨current, .here⟩
      · obtain ⟨now, hnow⟩ := ih h hlater
        exact ⟨now, .later hact hnow⟩

theorem RunsIn.leadsTo {path : Path} {seg : Seg} {branches : List (Step × Trie α)}
    {current now : Option Node} {label : Label} {value : α}
    (h : walker.RunsIn path seg branches current label value now) :
    ∃ branch, walker.LeadsTo path seg branches current label branch ∧ value ∈ branch.2.values := by
  induction h with
  | here hleads hhands => exact ⟨_, .here hleads, hhands.mem⟩
  | skip hleads _ ih =>
      obtain ⟨branch, hbranch, hvalue⟩ := ih
      exact ⟨branch, .skip hleads hbranch, hvalue⟩
  | after hleads hact _ ih =>
      obtain ⟨branch, hbranch, hvalue⟩ := ih
      exact ⟨branch, .after hleads hact hbranch, hvalue⟩

theorem LeadsTo.runsIn {path : Path} {seg : Seg} {branches : List (Step × Trie α)}
    {current : Option Node} {label : Label} {branch : Step × Trie α}
    (h : walker.LeadsTo path seg branches current label branch) (hvalues : branch.2.values ≠ []) :
    ∃ value ∈ branch.2.values, ∃ now,
      walker.RunsIn path seg branches current label value now := by
  induction h with
  | @here step trie rest current label hleads =>
      obtain ⟨value, others, hhead⟩ := List.exists_cons_of_ne_nil hvalues
      refine ⟨value, ?_, current, .here hleads ?_⟩
      · rw [hhead]
        exact List.mem_cons_self
      · rw [hhead]
        exact .here
  | skip hleads _ ih =>
      obtain ⟨value, hvalue, now, hruns⟩ := ih hvalues
      exact ⟨value, hvalue, now, .skip hleads hruns⟩
  | after hleads hact _ ih =>
      obtain ⟨value, hvalue, now, hruns⟩ := ih hvalues
      exact ⟨value, hvalue, now, .after hleads hact hruns⟩

theorem Runs.leadsIn {start : Frame α} {place : Path} {value : α} {now : Option Node}
    (h : walker.Runs start place value now) :
    ∃ branch, walker.LeadsIn start place branch ∧ value ∈ branch.2.values := by
  obtain ⟨frame, seg, child, label, henters, hvisit, hplace, hruns⟩ := h
  obtain ⟨branch, hbranch, hvalue⟩ := hruns.leadsTo
  exact ⟨branch, ⟨frame, seg, child, label, henters, hvisit, hplace, hplace ▸ hbranch⟩, hvalue⟩

theorem Runs.ne_nil {start : Frame α} {place : Path} {value : α} {now : Option Node}
    (h : walker.Runs start place value now) : place ≠ [] := by
  obtain ⟨frame, seg, child, label, -, -, rfl, -⟩ := h
  exact List.concat_ne_nil _ _

/-- A branch with values that leads to a slot runs one of them there. -/
theorem LeadsIn.runs {start : Frame α} {place : Path} {branch : Step × Trie α}
    (h : walker.LeadsIn start place branch) (hvalues : branch.2.values ≠ []) :
    ∃ value ∈ branch.2.values, ∃ now, walker.Runs start place value now := by
  obtain ⟨frame, seg, child, label, henters, hvisit, rfl, hleads⟩ := h
  obtain ⟨value, hvalue, now, hruns⟩ := hleads.runsIn hvalues
  exact ⟨value, hvalue, now, frame, seg, child, label, henters, hvisit, rfl, hruns⟩

/-! ### Along the trie -/

variable {start frame : Frame α} {top : Trie α}

/-- Every branch that a frame has left was got to along the steps at which the trie has it. -/
theorem Enters.led (htop : top.Deterministic) (hstart : start.branches = top.branches)
    (h : walker.Enters start frame) :
    ∀ branch ∈ frame.branches, ∃ steps, walker.Led start top steps frame.path ∧
      top.at? (steps ++ [branch.1]) = some branch.2 := by
  induction h with
  | refl =>
      intro branch hbranch
      rw [hstart] at hbranch
      exact ⟨[], .nil, htop.at?_concat rfl hbranch⟩
  | @tail frame deeper henters hlast ih =>
      obtain ⟨hvisit, hsettle, -⟩ := hlast
      intro branch hbranch
      obtain ⟨parent, hparent, hmem⟩ := leadsTo_of_mem_below hsettle branch hbranch
      obtain ⟨steps, hled, hat⟩ := ih parent hparent.mem
      exact ⟨steps ++ [parent.1], .snoc hled ⟨_, _, _, _, henters, hvisit, rfl, hparent⟩ hat,
        htop.at?_concat hat hmem⟩

/-- **A branch that leads to a place was got to along the steps at which the trie has it.** -/
theorem LeadsIn.led (htop : top.Deterministic) (hstart : start.branches = top.branches)
    {place : Path} {branch : Step × Trie α} (h : walker.LeadsIn start place branch) :
    ∃ steps, walker.Led start top (steps ++ [branch.1]) place ∧
      top.at? (steps ++ [branch.1]) = some branch.2 := by
  obtain ⟨frame, seg, child, label, henters, hvisit, rfl, hleads⟩ := h
  obtain ⟨steps, hled, hat⟩ := henters.led htop hstart branch hleads.mem
  exact ⟨steps, .snoc hled ⟨frame, seg, child, label, henters, hvisit, rfl, hleads⟩ hat, hat⟩

/-- What is run at a place lies where the steps end that have led there. -/
theorem Runs.led (htop : top.Deterministic) (hstart : start.branches = top.branches)
    {place : Path} {value : α} {now : Option Node} (h : walker.Runs start place value now) :
    ∃ steps node, steps ≠ [] ∧ walker.Led start top steps place ∧ top.at? steps = some node ∧
      value ∈ node.values := by
  obtain ⟨branch, hleads, hvalue⟩ := h.leadsIn
  obtain ⟨steps, hled, hat⟩ := hleads.led htop hstart
  exact ⟨_, branch.2, List.concat_ne_nil _ _, hled, hat, hvalue⟩

theorem LeadsTo.leads {path : Path} {seg : Seg} {branches : List (Step × Trie α)}
    {current : Option Node} {label : Label} {branch : Step × Trie α}
    (h : walker.LeadsTo path seg branches current label branch) :
    ∃ value, walker.leads branch.1 value seg = true := by
  induction h with
  | here hleads => exact ⟨_, hleads⟩
  | skip _ _ ih => exact ih
  | after _ _ _ ih => exact ih

/-- A slot that is led to belongs to a frame at the place above. -/
theorem LeadsIn.exists_frame {path : Path} {seg : Seg} {branch : Step × Trie α}
    (h : walker.LeadsIn start (path ++ [seg]) branch) :
    ∃ frame child label, walker.Enters start frame ∧ frame.path = path ∧
      walker.Visits frame seg child label ∧
      walker.LeadsTo (path ++ [seg]) seg frame.branches (some child) label branch := by
  obtain ⟨frame, other, child, label, henters, hvisit, hplace, hleads⟩ := h
  obtain ⟨rfl, hseg⟩ := List.append_inj' hplace rfl
  cases hseg
  exact ⟨frame, child, label, henters, rfl, hvisit, hleads⟩

/-- Every step led to its slot, by a value that the slot held. -/
theorem Led.forall₂ {steps : List Step} {place : Path} (h : walker.Led start top steps place)
    (hroot : start.path = []) :
    List.Forall₂ (fun step seg => ∃ value, walker.leads step value seg = true) steps place := by
  induction h with
  | nil =>
      rw [hroot]
      exact .nil
  | snoc _ hleads _ ih =>
      obtain ⟨frame, child, label, -, -, -, hturn⟩ := hleads.exists_frame
      exact List.rel_append ih (.cons hturn.leads .nil)

theorem Led.upTo {steps front : List Step} {place : Path} (h : walker.Led start top steps place)
    (hpre : front <+: steps) : ∃ path, path <+: place ∧ walker.Led start top front path := by
  induction h with
  | nil =>
      obtain rfl := List.prefix_nil.mp hpre
      exact ⟨start.path, List.prefix_refl _, .nil⟩
  | @snoc steps path seg branch hfront hleads hbranch ih =>
      rcases List.prefix_concat_iff.mp hpre with rfl | hshorter
      · exact ⟨path ++ [seg], List.prefix_refl _, .snoc hfront hleads hbranch⟩
      · obtain ⟨other, hother, hled⟩ := ih hshorter
        exact ⟨other, hother.trans (List.prefix_append _ _), hled⟩

/-! ### Where nothing was run on the way -/

/-- Where nothing was run on the way to a slot, nothing was run up to the frame it is of. -/
theorem quiet_above {path : Path} {seg : Seg}
    (hquiet : ∀ acted, acted <+: path ++ [seg] → acted ≠ path ++ [seg] →
      ¬walker.ActsAt start acted) :
    ∀ acted, acted <+: path → ¬walker.ActsAt start acted := by
  intro acted hacted
  refine hquiet acted (hacted.trans (List.prefix_append _ _)) ?_
  rintro rfl
  have hlonger := hacted.length_le
  rw [List.length_append, List.length_singleton] at hlonger
  omega

/-- A frame on whose way nothing was run has the node that the tree has there. -/
theorem Enters.at?_of_quiet (hroot : start.path = []) (hdistinct : start.node.Distinct)
    (h : walker.Enters start frame)
    (hquiet : ∀ acted, acted <+: frame.path → ¬walker.ActsAt start acted) :
    start.node.at? frame.path = some frame.node := by
  induction h with
  | refl =>
      rw [hroot]
      rfl
  | @tail frame deeper henters hlast ih =>
      obtain ⟨hvisit, hsettle, -⟩ := hlast
      rename_i seg child label value below after
      have hbefore := ih fun acted hacted => hquiet acted (hacted.trans (List.prefix_append _ _))
      have hpassed : ¬walker.ActsAt frame (frame.path ++ [seg]) := fun hacts =>
        hquiet _ (List.prefix_refl _) (hacts.of_enters henters)
      rw [settle_of_quiet (hvisit.quiet hpassed)] at hsettle
      cases hsettle
      exact Node.at?_concat_of_mem_slots hdistinct hbefore hvisit.mem_slots

/-- A branch leads to a slot by the child that was there, or one with values did so before it. -/
theorem LeadsTo.leads_or {path : Path} {seg : Seg} {branches : List (Step × Trie α)} {child : Node}
    {label : Label} {branch : Step × Trie α}
    (h : walker.LeadsTo path seg branches (some child) label branch) :
    walker.leads branch.1 child seg = true ∨
      ∃ other, walker.LeadsTo path seg branches (some child) label other ∧
        other.2.values ≠ [] ∧ walker.leads other.1 child seg = true := by
  generalize hcurrent : some child = current at h
  induction h with
  | here hleads =>
      subst hcurrent
      exact Or.inl hleads
  | skip hleads _ ih =>
      rcases ih hcurrent with hhere | ⟨other, hother, hvalues, hled⟩
      · exact Or.inl hhere
      · exact Or.inr ⟨other, .skip hleads hother, hvalues, hled⟩
  | @after step trie rest current next label between branch hleads hact _ ih =>
      -- Without values the slot is as it was; with values this branch is the one that came before.
      by_cases hvalues : trie.values = []
      · have hkept : next = current ∧ between = label := by
          rw [hvalues] at hact
          cases hact
          exact ⟨rfl, rfl⟩
        obtain ⟨rfl, rfl⟩ := hkept
        rcases ih hcurrent with hhere | ⟨other, hother, hothers, hled⟩
        · exact Or.inl hhere
        · exact Or.inr ⟨other, .after hleads hact hother, hothers, hled⟩
      · subst hcurrent
        exact Or.inr ⟨(step, trie), .here hleads, hvalues, hleads⟩

/--
**Steps along which nothing was run lead through the tree itself.**  At the last slot values may
run, if the branches that brought them there led to it only where the last step does.
-/
theorem Led.trail (hroot : start.path = []) (hdistinct : start.node.Distinct) {steps : List Step}
    {place : Path} (h : walker.Led start top steps place)
    (hquiet : ∀ acted, acted <+: place → acted ≠ place → ¬walker.ActsAt start acted)
    (hlast : ∀ step ∈ steps.getLast?, ∀ branch, walker.LeadsIn start place branch →
      branch.2.values ≠ [] → ∀ child seg, walker.leads branch.1 child seg = true →
        walker.leads step child seg = true) :
    ∃ found, Node.Trail (walker.leads · · · = true) start.node steps place found := by
  induction h with
  | nil =>
      rw [hroot]
      exact ⟨start.node, .nil⟩
  | @snoc steps path seg branch hfront hleads hbranch ih =>
      have hbefore := quiet_above hquiet
      obtain ⟨found, htrail⟩ := ih (fun acted hacted _ => hbefore acted hacted)
        fun _ _ other hother hvalues =>
          absurd ⟨other, hother, hvalues⟩ (hbefore path (List.prefix_refl _))
      obtain ⟨frame, child, label, henters, rfl, hvisit, hturn⟩ := hleads.exists_frame
      have hnode : frame.node = found := by
        have hat := henters.at?_of_quiet hroot hdistinct hbefore
        rw [htrail.at?_eq hdistinct] at hat
        exact (Option.some.inj hat).symm
      -- An earlier branch may have changed the slot, but it was led there by the child itself.
      refine ⟨child, htrail.snoc (hnode ▸ hvisit.mem_slots) ?_⟩
      rcases hturn.leads_or with hchild | ⟨other, hother, hvalues, hled⟩
      · exact hchild
      · exact hlast branch.1 (by simp) other
          ⟨frame, seg, child, label, henters, hvisit, rfl, hother⟩ hvalues child seg hled

end Walker

end Reducer
