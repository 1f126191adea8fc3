/-
The rebuilds a walk is made of.

A walk rebuilds the root, and from there descends to every slot that still holds a
value once it is settled and has branches left.  A `Frame` is one such rebuild: where
it is, along which branches, of which node, and the label it starts at.  `Enters` is
the descent, step by step, so "a container the walk rebuilds" is a frame it enters,
and the value in it is the one the slot held after its effects.

What a walk came to is said in the same terms.  `Reaches` is about a place: some
branch leads there at its turn.  `ActsAt` says that such a branch held a value, so
that something was done to the slot.

Two inductions carry everything below.  Descents are followed from the outermost
frame inward, and a rebuild that succeeds has succeeded in every frame it entered.
-/
import Mathlib.Logic.Relation
import Reducer.Proofs.Walk.Slots

namespace Reducer

open Build

/-- One rebuild in the midst of a walk. -/
structure Frame (α : Type) where
  /-- The place of the node. -/
  path : Path
  /-- What the node is rebuilt along. -/
  branches : List (Step × Trie α)
  /-- The node as it is when its slots are about to be visited. -/
  node : Node
  /-- The next label at that moment. -/
  label : Label

namespace Walker

variable {α : Type} (walker : Walker Build α)

/-- Rebuilds the node of a frame. -/
def rebuildFrame (frame : Frame α) : Except Fault (Node × Label) :=
  (walker.rebuildFully frame.path frame.branches frame.node).run frame.label

/-- A frame visits a slot of its node, from the label `start` on. -/
def Visits (frame : Frame α) (seg : Seg) (child : Node) (start : Label) : Prop :=
  VisitedAt (walker.visitSlot walker.rebuildFully frame.path frame.branches) frame.node.slots
    frame.label (seg, child) start

/-- A frame goes down into a slot that holds a value and has branches left. -/
inductive Descends : Frame α → Frame α → Prop
  | mk {frame seg child start value below after} (hvisit : walker.Visits frame seg child start)
      (hsettle : (walker.settle (frame.path ++ [seg]) seg frame.branches (some child)).run start =
        .ok ((some value, below), after))
      (hbelow : below ≠ []) : Descends frame ⟨frame.path ++ [seg], below, value, after⟩

/-- The walk that begins at one frame rebuilds another. -/
def Enters : Frame α → Frame α → Prop :=
  Relation.ReflTransGen walker.Descends

/-- In the walk that begins at `start`, a branch leads to a slot of some frame at its turn. -/
def LeadsIn (start : Frame α) (path : Path) (branch : Step × Trie α) : Prop :=
  ∃ frame seg child label, walker.Enters start frame ∧ walker.Visits frame seg child label ∧
    path = frame.path ++ [seg] ∧
    walker.LeadsTo path seg frame.branches (some child) label branch

/-- The walk that begins at `start` comes to a place: every slot on the way there is led to. -/
def Reaches (start : Frame α) (path : Path) : Prop :=
  ∃ branch, walker.LeadsIn start path branch

/-- The walk that begins at `start` acts on the slot at a place. -/
def ActsAt (start : Frame α) (path : Path) : Prop :=
  ∃ branch, walker.LeadsIn start path branch ∧ branch.2.values ≠ []

variable {walker}

/-! ### What a visit does -/

/-- A slot that is visited with success was settled, and rebuilt if it had to be. -/
theorem visitSlot_ok {deeper : Path → List (Step × Trie α) → Node → Build Node} {path : Path}
    {branches : List (Step × Trie α)} {seg : Seg} {child : Node} {label after : Label}
    {outcome : Option Node}
    (h : (walker.visitSlot deeper path branches seg child).run label = .ok (outcome, after)) :
    ∃ current below between,
      (walker.settle (path ++ [seg]) seg branches (some child)).run label =
        .ok ((current, below), between) ∧
      ((current = none ∨ below = []) ∧ outcome = current ∧ after = between ∨
        ∃ value rebuilt, current = some value ∧ below ≠ [] ∧
          (deeper (path ++ [seg]) below value).run between = .ok (rebuilt, after) ∧
          outcome = some rebuilt) := by
  rw [visitSlot] at h
  obtain ⟨⟨current, below⟩, between, hsettle, h⟩ := run_bind_ok.mp h
  refine ⟨current, below, between, hsettle, ?_⟩
  cases current with
  | none =>
      cases h
      exact Or.inl ⟨Or.inl rfl, rfl, rfl⟩
  | some value =>
      by_cases hbelow : below = []
      · simp only [hbelow, List.isEmpty_nil, if_true] at h
        cases h
        exact Or.inl ⟨Or.inr hbelow, rfl, rfl⟩
      · simp only [List.isEmpty_iff, if_neg hbelow] at h
        obtain ⟨rebuilt, ending, hdeeper, h⟩ := run_bind_ok.mp h
        cases h
        exact Or.inr ⟨value, rebuilt, rfl, hbelow, hdeeper, rfl⟩

/-- A slot that nothing leads to keeps its child. -/
theorem visitSlot_of_unmatched {deeper : Path → List (Step × Trie α) → Node → Build Node}
    {path : Path} {branches : List (Step × Trie α)} {seg : Seg} {child : Node}
    (h : walker.Unmatched branches seg child) :
    walker.visitSlot deeper path branches seg child = pure (some child) := by
  rw [visitSlot, settle_of_quiet h.quiet, below_of_unmatched h]
  simp

/-! ### Frames that succeed -/

theorem Visits.mem_slots {frame : Frame α} {seg : Seg} {child : Node} {start : Label}
    (h : walker.Visits frame seg child start) : (seg, child) ∈ frame.node.slots :=
  VisitedAt.mem h

theorem Visits.isContainer {frame : Frame α} {seg : Seg} {child : Node} {start : Label}
    (h : walker.Visits frame seg child start) : frame.node.isContainer = true :=
  Node.isContainer_of_mem_slots h.mem_slots

/-- What a frame that succeeds has done to its slots. -/
theorem rebuildFrame_ok {frame : Frame α} {rebuilt : Node} {after : Label}
    (hnode : frame.node.isContainer = true) (h : walker.rebuildFrame frame = .ok (rebuilt, after)) :
    ∃ outcomes between new,
      (visitAll (walker.visitSlot walker.rebuildFully frame.path frame.branches)
        frame.node.slots).run frame.label = .ok (outcomes, between) ∧
      walker.label.run between = .ok (new, after) ∧ rebuilt = frame.node.refill new outcomes := by
  rw [rebuildFrame, rebuildFully_eq] at h
  exact rebuildSlots_ok hnode h

/-- A frame that succeeds has visited every slot of its node, and settled it. -/
theorem exists_settle {frame : Frame α} {rebuilt : Node} {after : Label} {seg : Seg} {child : Node}
    (h : walker.rebuildFrame frame = .ok (rebuilt, after))
    (hchild : frame.node.child? seg = some child) :
    ∃ start outcome ending, walker.Visits frame seg child start ∧
      (walker.settle (frame.path ++ [seg]) seg frame.branches (some child)).run start =
        .ok (outcome, ending) := by
  have hslot := Node.mem_slots_of_child? hchild
  obtain ⟨outcomes, between, new, hvisits, -, -⟩ :=
    rebuildFrame_ok (Node.isContainer_of_child? hchild) h
  obtain ⟨position, hposition⟩ := List.getElem?_of_mem hslot
  obtain ⟨outcome, -, start, ending, hvisit, hrun⟩ :=
    getElem?_of_forall₂ (forall₂_visitedAt hvisits) hposition
  obtain ⟨current, below, after, hsettle, -⟩ := visitSlot_ok hrun
  exact ⟨start, _, after, hvisit, hsettle⟩

/-- A scalar is rebuilt to itself. -/
theorem rebuildFrame_of_not_isContainer {frame : Frame α} (hnode : frame.node.isContainer = false) :
    walker.rebuildFrame frame = .ok (frame.node, frame.label) := by
  rw [rebuildFrame, rebuildFully_eq, rebuildSlots_eq, hnode]
  rfl

theorem kind_rebuildFrame {frame : Frame α} {rebuilt : Node} {after : Label}
    (h : walker.rebuildFrame frame = .ok (rebuilt, after)) : rebuilt.kind = frame.node.kind := by
  cases hnode : frame.node.isContainer with
  | false =>
      rw [rebuildFrame_of_not_isContainer hnode] at h
      cases h
      rfl
  | true =>
      obtain ⟨outcomes, _, new, -, -, rfl⟩ := rebuildFrame_ok hnode h
      exact Node.kind_refill _ _ _

/-- A frame that a successful frame goes down to is rebuilt, and its slot holds the result. -/
theorem Descends.rebuildFrame {frame deeper : Frame α} {outcomes : List (Option Node)}
    {between : Label} (h : walker.Descends frame deeper)
    (hvisits : (visitAll (walker.visitSlot walker.rebuildFully frame.path frame.branches)
      frame.node.slots).run frame.label = .ok (outcomes, between)) :
    ∃ seg child rebuilt after, deeper.path = frame.path ++ [seg] ∧
      walker.rebuildFrame deeper = .ok (rebuilt, after) ∧
      ((seg, child), some rebuilt) ∈ frame.node.slots.zip outcomes := by
  obtain ⟨hvisit, hsettle, hbelow⟩ := h
  rename_i seg child start value below after
  obtain ⟨outcome, ending, hslot, hmem⟩ := visit_of_visitedAt hvisits hvisit
  obtain ⟨current, others, middle, hother, hrest⟩ := visitSlot_ok hslot
  rw [hsettle] at hother
  cases hother
  rcases hrest with ⟨hstop, -, -⟩ | ⟨kept, rebuilt, hkept, -, hdeeper, rfl⟩
  · exact absurd hstop (by simp [hbelow])
  · cases hkept
    exact ⟨seg, child, rebuilt, ending, rfl, hdeeper, hmem⟩

/-- **A walk that succeeds has succeeded in every frame it entered.** -/
theorem Enters.rebuildFrame {start frame : Frame α} (h : walker.Enters start frame)
    {rebuilt : Node} {after : Label} (hstart : walker.rebuildFrame start = .ok (rebuilt, after)) :
    ∃ rebuilt after, walker.rebuildFrame frame = .ok (rebuilt, after) := by
  induction h with
  | refl => exact ⟨rebuilt, after, hstart⟩
  | tail _ hlast ih =>
      obtain ⟨rebuilt, after, hframe⟩ := ih
      obtain ⟨hvisit, _, _⟩ := id hlast
      obtain ⟨outcomes, between, new, hvisits, -, -⟩ := rebuildFrame_ok hvisit.isContainer hframe
      obtain ⟨_, _, rebuilt, after, -, hdeeper, -⟩ := hlast.rebuildFrame hvisits
      exact ⟨rebuilt, after, hdeeper⟩

/-! ### Single slots of a frame that succeeds -/

/-- A frame visits a slot, with this outcome. -/
def Visited (walker : Walker Build α) (frame : Frame α) (slot : Seg × Node)
    (outcome : Option Node) : Prop :=
  ∃ start after, walker.Visits frame slot.1 slot.2 start ∧
    (walker.visitSlot walker.rebuildFully frame.path frame.branches slot.1 slot.2).run start =
      .ok (outcome, after)

theorem Visited.of_unmatched {frame : Frame α} {seg : Seg} {child : Node} {outcome : Option Node}
    (h : walker.Visited frame (seg, child) outcome)
    (hslot : walker.Unmatched frame.branches seg child) : outcome = some child := by
  obtain ⟨start, after, -, hrun⟩ := h
  rw [visitSlot_of_unmatched hslot] at hrun
  cases hrun
  rfl

/-- A slot that is only passed keeps its child, or is gone down into with the child it had. -/
theorem Visited.of_quiet {frame : Frame α} {seg : Seg} {child : Node} {outcome : Option Node}
    (h : walker.Visited frame (seg, child) outcome)
    (hslot : walker.Quiet frame.branches seg child) :
    (walker.below frame.branches seg child = [] ∧ outcome = some child) ∨
      ∃ deeper rebuilt after, walker.Descends frame deeper ∧
        deeper.path = frame.path ++ [seg] ∧ deeper.node = child ∧
        deeper.branches = walker.below frame.branches seg child ∧
        walker.rebuildFrame deeper = .ok (rebuilt, after) ∧ outcome = some rebuilt := by
  obtain ⟨start, after, hvisit, hrun⟩ := h
  obtain ⟨current, below, between, hsettle, hrest⟩ := visitSlot_ok hrun
  have hkept := hsettle
  rw [settle_of_quiet hslot] at hkept
  cases hkept
  rcases hrest with ⟨hstop, rfl, -⟩ | ⟨value, rebuilt, hvalue, hbelow, hdeeper, rfl⟩
  · exact Or.inl ⟨by simpa using hstop, rfl⟩
  · cases hvalue
    exact Or.inr ⟨⟨frame.path ++ [seg], walker.below frame.branches seg child, child, start⟩,
      rebuilt, after, .mk hvisit hsettle hbelow, rfl, rfl, rfl, hdeeper, rfl⟩

/-! ### What the walk came to, seen from one frame further in -/

theorem LeadsIn.of_enters {start next : Frame α} (hstart : walker.Enters start next) {path : Path}
    {branch : Step × Trie α} (h : walker.LeadsIn next path branch) :
    walker.LeadsIn start path branch := by
  obtain ⟨frame, seg, child, label, henters, hrest⟩ := h
  exact ⟨frame, seg, child, label, Relation.ReflTransGen.trans hstart henters, hrest⟩

theorem LeadsIn.of_descends {start next : Frame α} (hstart : walker.Descends start next)
    {path : Path} {branch : Step × Trie α} (h : walker.LeadsIn next path branch) :
    walker.LeadsIn start path branch :=
  h.of_enters (Relation.ReflTransGen.single hstart)

theorem Reaches.of_descends {start next : Frame α} (hstart : walker.Descends start next)
    {path : Path} (h : walker.Reaches next path) : walker.Reaches start path := by
  obtain ⟨branch, hbranch⟩ := h
  exact ⟨branch, hbranch.of_descends hstart⟩

theorem ActsAt.of_enters {start next : Frame α} (hstart : walker.Enters start next) {path : Path}
    (h : walker.ActsAt next path) : walker.ActsAt start path := by
  obtain ⟨branch, hbranch, hvalues⟩ := h
  exact ⟨branch, hbranch.of_enters hstart, hvalues⟩

theorem ActsAt.of_descends {start next : Frame α} (hstart : walker.Descends start next)
    {path : Path} (h : walker.ActsAt next path) : walker.ActsAt start path :=
  h.of_enters (Relation.ReflTransGen.single hstart)

/-- A slot that is never acted on is only passed. -/
theorem Visits.quiet {frame : Frame α} {seg : Seg} {child : Node} {start : Label}
    (hvisit : walker.Visits frame seg child start)
    (hacts : ¬walker.ActsAt frame (frame.path ++ [seg])) :
    walker.Quiet frame.branches seg child := by
  have hempty : ∀ branch,
      walker.LeadsTo (frame.path ++ [seg]) seg frame.branches (some child) start branch →
      branch.2.values = [] := fun branch hbranch => Classical.byContradiction fun hvalues =>
    hacts ⟨branch, ⟨frame, seg, child, start, .refl, hvisit, rfl, hbranch⟩, hvalues⟩
  exact quiet_of_leadsTo start hempty

/-! ### Places -/

theorem Descends.path_eq {frame deeper : Frame α} (h : walker.Descends frame deeper) :
    ∃ seg, deeper.path = frame.path ++ [seg] := by
  obtain ⟨_, _, _⟩ := h
  exact ⟨_, rfl⟩

theorem Descends.height_lt {frame deeper : Frame α} (h : walker.Descends frame deeper) :
    Trie.branchesHeight deeper.branches < Trie.branchesHeight frame.branches := by
  obtain ⟨_, hsettle, hbelow⟩ := h
  exact height_below_of_settle walker hsettle hbelow

/-- Branches of height one lead to slots and no further. -/
theorem Descends.one_lt_height {frame deeper : Frame α} (h : walker.Descends frame deeper) :
    1 < Trie.branchesHeight frame.branches := by
  have hheight := h.height_lt
  obtain ⟨_, _, hbelow⟩ := h
  exact Nat.lt_of_le_of_lt (Trie.branchesHeight_pos hbelow) hheight

theorem Enters.prefix_path {start frame : Frame α} (h : walker.Enters start frame) :
    start.path <+: frame.path := by
  induction h with
  | refl => exact List.prefix_refl _
  | tail _ hlast ih =>
      obtain ⟨seg, hpath⟩ := hlast.path_eq
      rw [hpath]
      exact ih.trans (List.prefix_append _ _)

/-- A slot that is gone down into was led to. -/
theorem Descends.reaches {start frame deeper : Frame α} (henters : walker.Enters start frame)
    (h : walker.Descends frame deeper) : walker.Reaches start deeper.path := by
  obtain ⟨hvisit, hsettle, hbelow⟩ := h
  obtain ⟨branch, hbranch⟩ := List.exists_mem_of_ne_nil _ hbelow
  obtain ⟨parent, hparent, -⟩ := leadsTo_of_mem_below hsettle branch hbranch
  exact ⟨parent, _, _, _, _, henters, hvisit, rfl, hparent⟩

theorem Enters.reaches {start frame : Frame α} (h : walker.Enters start frame) {place : Path}
    (hpre : place <+: frame.path) (hlonger : start.path.length < place.length) :
    walker.Reaches start place := by
  induction h with
  | refl => exact absurd hpre.length_le (Nat.not_le_of_lt hlonger)
  | tail hfirst hlast ih =>
      obtain ⟨seg, hpath⟩ := hlast.path_eq
      rcases List.prefix_concat_iff.mp (hpath ▸ hpre) with heq | hshorter
      · rw [heq, ← hpath]
        exact hlast.reaches hfirst
      · exact ih hshorter

/-- **The walk comes to a place only by way of every slot that leads there.** -/
theorem Reaches.upTo {start : Frame α} {place path : Path} (h : walker.Reaches start path)
    (hpre : place <+: path) (hlonger : start.path.length < place.length) :
    walker.Reaches start place := by
  obtain ⟨branch, frame, seg, child, label, henters, hvisit, rfl, hleads⟩ := h
  rcases List.prefix_concat_iff.mp hpre with rfl | hshorter
  · exact ⟨branch, frame, seg, child, label, henters, hvisit, rfl, hleads⟩
  · exact henters.reaches hshorter hlonger

end Walker

end Reducer
