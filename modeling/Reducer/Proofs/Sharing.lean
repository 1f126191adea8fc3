/-
What a reduction carries over.

A container that is rebuilt gets a new label, but nothing else about it changes
beyond what its slots became.  A slot that no branch leads to is not even looked
into: its child is carried over as the node it is.  `Carries` says this of one
container, and it holds of every frame a walk enters, since a frame is rebuilt slot
by slot and a slot without a branch is visited by doing nothing.  What comes of the
frame is then found in the new tree, where the slots above it have moved to; `Shares`
takes the two together.

Further in, a child is still carried over as long as the slots on the way to it are
only passed: nothing is done to them, so each of them is tested as it was in the
state, and the branches that come to the last one can be told from the state alone.
`Passes` is that condition on a path of keys.
-/
import Reducer.Proofs.Reduction
import Reducer.Proofs.Walk.Moving

namespace Reducer

open Build

/-- Which item a rebuilt array takes over from where, and what an object keeps. -/
inductive Carries (kept : Seg → Node → Prop) (becomes : Seg → Node → Node → Prop) :
    Node → Node → Prop
  /-- An object keeps its keys' order, and the very node at each kept slot. -/
  | obj {label other fields rebuilt}
      (hkeys : (Table.keys rebuilt).Sublist (Table.keys fields))
      (hkept : ∀ name child, Table.get? fields name = some child → kept (.key name) child →
        Table.get? rebuilt name = some child) :
      Carries kept becomes (.obj label fields) (.obj other rebuilt)
  /-- An array's items come, in order, from the positions in `origin`; a kept item is among them. -/
  | arr {label other items rebuilt} (origin : List Nat) (horder : origin.Pairwise (· < ·))
      (hlength : origin.length = rebuilt.length)
      (horigin : ∀ (position : Nat) (source : Nat) (item : Node), origin[position]? = some source →
        rebuilt[position]? = some item →
        ∃ child, items[source]? = some child ∧ becomes (.index source) child item)
      (hkept : ∀ (source : Nat) (child : Node), items[source]? = some child → child.isNull = false →
        kept (.index source) child →
        ∃ position : Nat, origin[position]? = some source ∧ rebuilt[position]? = some child) :
      Carries kept becomes (.arr label items) (.arr other rebuilt)
  /-- A scalar stays what it is. -/
  | scalar {node} (hnode : node.isContainer = false) : Carries kept becomes node node

namespace Walker

/-! ### One container -/

variable {α : Type} {walker : Walker Build α}

/-- **Every frame carries over what no branch leads to.** -/
theorem carries_of_rebuildFrame {frame : Frame α} {rebuilt : Node} {after : Label}
    (h : walker.rebuildFrame frame = .ok (rebuilt, after)) :
    Carries (walker.Unmatched frame.branches)
      (fun seg child item => walker.Visited frame (seg, child) (some item)) frame.node rebuilt := by
  cases hnode : frame.node.isContainer with
  | false =>
      rw [rebuildFrame_of_not_isContainer hnode] at h
      cases h
      exact .scalar hnode
  | true =>
      obtain ⟨outcomes, between, new, hvisits, -, rfl⟩ := rebuildFrame_ok hnode h
      have hslots : List.Forall₂ (walker.Visited frame) frame.node.slots outcomes :=
        forall₂_visitedAt hvisits
      rcases Node.arr_or_obj hnode with ⟨label, items, hframe⟩ | ⟨label, fields, hframe⟩
      · rw [hframe, Node.slots, List.forall₂_map_left_iff] at hslots
        rw [hframe]
        refine .arr (origins outcomes) (origins_pairwise outcomes) (length_origins outcomes) ?_ ?_
        · intro position source item horigin hitem
          have hslot := getElem?_of_origins horigin hitem
          obtain ⟨slot, hchild, hvisited⟩ := getElem?_of_forall₂ hslots.flip hslot
          rw [List.getElem?_zipIdx, Nat.zero_add, Option.map_eq_some_iff] at hchild
          obtain ⟨child, hget, rfl⟩ := hchild
          exact ⟨child, hget, hvisited⟩
        · intro source child hget hnull hkept
          have hslot : items.zipIdx[source]? = some (child, source) := by
            rw [List.getElem?_zipIdx, hget]
            simp
          obtain ⟨outcome, houtcome, hvisited⟩ := getElem?_of_forall₂ hslots hslot
          rw [Visited.of_unmatched hvisited hkept] at houtcome
          exact exists_position houtcome hnull
      · rw [hframe, Node.slots, List.forall₂_map_left_iff] at hslots
        rw [hframe]
        refine .obj (Node.keys_keepFields_sublist fields outcomes) fun name child hget hkept => ?_
        obtain ⟨outcome, hvisited, hvalue⟩ := Node.get?_keepFields hslots hget
        exact hvalue child (hvisited.of_unmatched hkept)

/-- What comes of a frame, and where that is in the tree that the walk leaves. -/
structure Shares (walker : Walker Build α) (start frame : Frame α) (next rebuilt : Node) :
    Prop where
  /-- What comes of the frame the walk begins with is the tree. -/
  root : frame = start → rebuilt = next
  /-- What comes of a container is in the tree, where the slots on the way to it have moved. -/
  place : frame.node.isContainer = true → ∃ moved, next.Moved frame.path moved rebuilt
  /-- It is of the kind of the node that was rebuilt. -/
  kind : rebuilt.kind = frame.node.kind
  /-- It carries over what no branch leads to, in the order it had. -/
  carries : Carries (walker.Unmatched frame.branches)
    (fun seg child item => walker.Visited frame (seg, child) (some item)) frame.node rebuilt

/-- **Where a walk succeeds, every frame carries over, and into the tree that is left.** -/
theorem shares_of_enters {start frame : Frame α} {next : Node} {after : Label}
    (h : walker.Enters start frame) (hroot : start.path = [])
    (hstart : walker.rebuildFrame start = .ok (next, after)) :
    ∃ rebuilt ending, walker.rebuildFrame frame = .ok (rebuilt, ending) ∧
      walker.Shares start frame next rebuilt := by
  obtain ⟨rebuilt, ending, hframe⟩ := h.rebuildFrame hstart
  refine ⟨rebuilt, ending, hframe, ?_, fun hnode => ?_, kind_rebuildFrame hframe,
    carries_of_rebuildFrame hframe⟩
  · rintro rfl
    rw [hstart] at hframe
    cases hframe
    rfl
  · obtain ⟨found, last, moved, hfound, htrail⟩ := h.trail hroot hstart hnode
    rw [hframe] at hfound
    cases hfound
    exact ⟨moved, htrail⟩

/-! ### A path of keys -/

/-- The slots on the way are only passed, and no branch leads to the last of them. -/
def Passes (walker : Walker Build α) : List (Step × Trie α) → Node → List String → Prop
  | _, _, [] => False
  | branches, node, [name] =>
      ∀ child, node.child? (.key name) = some child → walker.Unmatched branches (.key name) child
  | branches, node, name :: rest =>
      ∀ child, node.child? (.key name) = some child → walker.Quiet branches (.key name) child ∧
        Passes walker (walker.below branches (.key name) child) child rest

/-- A key's slot is visited, and the rebuilt node has there what became of it. -/
theorem exists_visited {frame : Frame α} {rebuilt child : Node} {after : Label} {name : String}
    (h : walker.rebuildFrame frame = .ok (rebuilt, after))
    (hchild : frame.node.child? (.key name) = some child) :
    ∃ outcome, walker.Visited frame (.key name, child) outcome ∧
      ∀ value, outcome = some value → rebuilt.child? (.key name) = some value := by
  obtain ⟨label, fields, hframe, hget⟩ := Node.child?_key hchild
  obtain ⟨outcomes, between, new, hvisits, -, rfl⟩ := rebuildFrame_ok (by rw [hframe]; rfl) h
  have hslots : List.Forall₂ (walker.Visited frame) frame.node.slots outcomes :=
    forall₂_visitedAt hvisits
  rw [hframe, Node.slots, List.forall₂_map_left_iff] at hslots
  obtain ⟨outcome, hvisited, hkept⟩ := Node.get?_keepFields hslots hget
  rw [hframe]
  exact ⟨outcome, hvisited, hkept⟩

/-- A rebuild adds no key. -/
theorem child?_key_eq_none {frame : Frame α} {rebuilt : Node} {after : Label} {name : String}
    (h : walker.rebuildFrame frame = .ok (rebuilt, after))
    (hchild : frame.node.child? (.key name) = none) : rebuilt.child? (.key name) = none := by
  have hcarries := carries_of_rebuildFrame h
  generalize frame.node = node at hcarries hchild
  cases hcarries with
  | obj hkeys _ =>
      refine (Table.get?_eq_none_iff _ name).mpr fun hmem => ?_
      exact (Table.get?_eq_none_iff _ name).mp hchild (hkeys.subset hmem)
  | arr => rfl
  | scalar hnode => exact hchild

/-- **What is only passed on the way, and not come to, is as it was.** -/
theorem at?_eq_of_passes {names : List String} :
    ∀ {frame : Frame α} {rebuilt : Node} {after : Label},
      walker.rebuildFrame frame = .ok (rebuilt, after) →
      walker.Passes frame.branches frame.node names →
      rebuilt.at? (names.map Seg.key) = frame.node.at? (names.map Seg.key) := by
  induction names with
  | nil => intro frame rebuilt after _ hpasses; exact hpasses.elim
  | cons name rest ih =>
      intro frame rebuilt after h hpasses
      rw [List.map_cons, Node.at?, Node.at?]
      cases hchild : frame.node.child? (.key name) with
      | none => rw [child?_key_eq_none h hchild]
      | some child =>
          obtain ⟨outcome, hvisited, hkept⟩ := exists_visited h hchild
          cases rest with
          | nil =>
              have hslot := hpasses child hchild
              rw [hkept child (Visited.of_unmatched hvisited hslot)]
          | cons next rest =>
              obtain ⟨hslot, hpasses⟩ := hpasses child hchild
              rcases Visited.of_quiet hvisited hslot with ⟨-, houtcome⟩ | hdeeper
              · rw [hkept child houtcome]
              · obtain ⟨deeper, inner, _, -, -, rfl, hbranches, hinner, houtcome⟩ := hdeeper
                rw [← hbranches] at hpasses
                rw [hkept inner houtcome]
                exact ih hinner hpasses

/-- A node that is only passed on the way, and not come to, is found where it was. -/
theorem at?_of_passes {names : List String} {frame : Frame α} {rebuilt value : Node} {after : Label}
    (h : walker.rebuildFrame frame = .ok (rebuilt, after))
    (hpasses : walker.Passes frame.branches frame.node names)
    (hvalue : frame.node.at? (names.map Seg.key) = some value) :
    rebuilt.at? (names.map Seg.key) = some value :=
  (at?_eq_of_passes h hpasses).trans hvalue

end Walker

/--
**A reduction shares what it does not come to.**  The root keeps its kind, and a
scalar root is not touched; every container the walk rebuilds carries over what no
branch leads to, and what comes of it is in the new state where its slots have moved,
the root's being the new state itself; and so a node that the walk only passes by is
found in the new state at its path, label and all.
-/
theorem Registry.reduce_carries {registry : Registry} {state next : Node} {action : Action}
    {label after : Label} (h : (registry.reduce state action).run label = .ok (next, after)) :
    next.kind = state.kind ∧ (state.isContainer = false → next = state) ∧
    (∀ pass start, registry.Starts state action label pass start →
      ∀ frame, pass.walker.Enters start frame →
        ∃ rebuilt after, pass.walker.rebuildFrame frame = .ok (rebuilt, after) ∧
          pass.walker.Shares start frame next rebuilt) ∧
    (∀ names value, state.at? (names.map Seg.key) = some value →
      (∀ pass start, registry.Starts state action label pass start →
        pass.walker.Passes start.branches state names) →
      next.at? (names.map Seg.key) = some value) := by
  rcases reduce_ok h with ⟨hnone, rfl⟩ | ⟨pass, start, hstart, hrun⟩
  · exact ⟨rfl, fun _ => rfl, fun pass start hstart => absurd hstart (hnone pass start),
      fun _ _ hvalue _ => hvalue⟩
  · obtain ⟨hpath, hnode, -⟩ := hstart.frame
    subst hnode
    refine ⟨Walker.kind_rebuildFrame hrun, fun hscalar => ?_, ?_, ?_⟩
    · rw [Walker.rebuildFrame_of_not_isContainer hscalar] at hrun
      cases hrun
      rfl
    · intro other begin hother frame henters
      obtain ⟨rfl, rfl⟩ := hstart.unique hother
      exact Walker.shares_of_enters henters hpath hrun
    · intro names value hvalue hpasses
      exact Walker.at?_of_passes hrun (hpasses pass start hstart) hvalue

/-- An object and a list. -/
def bagAndList : Node :=
  .obj 0 [("bag", .obj 1 [("x", .null), ("y", .arr 2 [])]),
    ("list", .arr 3 [.bool true, .null, .obj 4 []])]

/-- Takes something out of both. -/
def Registry.takeOut : Registry :=
  ofEffects "take" [⟨[.key "bag", .key "x"], some .delete⟩,
    ⟨[.key "list", .index 0], some .delete⟩]

/--
Both containers are rebuilt.  The array in the bag is still the one it was, and so is the object
in the list, which comes to the front since the null before it goes.
-/
theorem Registry.reduce_carries_takeOut :
    ∃ pass start frame next after,
      takeOut.Starts bagAndList ⟨"take", .null⟩ 5 pass start ∧
      (takeOut.reduce bagAndList ⟨"take", .null⟩).run 5 = .ok (next, after) ∧
      next.at? (["bag", "y"].map Seg.key) = some (.arr 2 []) ∧
      pass.walker.Enters start frame ∧ frame.path = [.key "list"] ∧
      frame.node = .arr 3 [.bool true, .null, .obj 4 []] ∧
      pass.walker.Shares start frame next (.arr 6 [.obj 4 []]) ∧
      ∃ moved, next.Moved [.key "list"] moved (.arr 6 [.obj 4 []]) := by
  let bag : List (Step × Trie Effect) := [(.literal (.key "x"), .node [.delete] [])]
  let list : List (Step × Trie Effect) := [(.literal (.index 0), .node [.delete] [])]
  let trie : Trie Effect := .node []
    [(.literal (.key "bag"), .node [] bag), (.literal (.key "list"), .node [] list)]
  let start : Frame Effect := ⟨[], trie.branches, bagAndList, 5⟩
  let pass : Pass := ⟨⟨"take", .null⟩, bagAndList, bagAndList⟩
  have hstart : takeOut.Starts bagAndList ⟨"take", .null⟩ 5 pass start := .mk rfl rfl
  have hrun : (takeOut.reduce bagAndList ⟨"take", .null⟩).run 5 =
      .ok (.obj 7 [("bag", .obj 5 [("y", .arr 2 [])]), ("list", .arr 6 [.obj 4 []])], 8) := rfl
  have hvisit : pass.walker.Visits start (.key "list") (.arr 3 [.bool true, .null, .obj 4 []]) 6 :=
    ⟨[(.key "bag", .obj 1 [("x", .null), ("y", .arr 2 [])])], [],
      [some (.obj 5 [("y", .arr 2 [])])], rfl, rfl⟩
  have henters : pass.walker.Enters start ⟨[.key "list"], list, _, 6⟩ :=
    .single (.mk hvisit rfl (List.cons_ne_nil _ _))
  obtain ⟨-, -, hframes, hpaths⟩ := reduce_carries hrun
  obtain ⟨rebuilt, ending, hrebuilt, hshares⟩ := hframes pass start hstart _ henters
  cases hrebuilt
  refine ⟨pass, start, _, _, _, hstart, hrun, hpaths ["bag", "y"] _ rfl ?_, henters, rfl, rfl,
    hshares, hshares.place rfl⟩
  rintro other begin hother
  obtain ⟨rfl, rfl⟩ := hstart.unique hother
  intro child hchild
  cases hchild
  refine ⟨?_, ?_⟩
  · intro branch hbranch hleads
    rcases List.mem_pair.mp hbranch with rfl | rfl <;> rfl
  · intro child hchild branch hbranch
    obtain rfl := List.mem_singleton.mp hbranch
    rfl

end Reducer
