/-
What bounds a reduction.

Effects may make trees that are deeper and wider than the state, at every level the walk comes
to, and the walk goes on into what they made.  It still comes to its end, since a trie is as
high as the longest list of steps it was filled with, `Trie.height_insertAll`, and a walk keeps
within the height of its trie.  After any calls the lists of steps are those of the slices that
were accepted for the action, compiled under the redirects of their calls; so what bounds the
walk was declared, and neither the state nor a callback has a say in it.
-/
import Reducer.Proofs.Reduction
import Reducer.Proofs.Registration
import Reducer.Proofs.Walk.Depth

namespace Reducer

open Build

namespace Registry

variable {commands : List Command} {state : Node} {action : Action} {label : Label} {pass : Pass}
  {start : Frame Effect}

/-- The trie of entries is as high as the longest of them. -/
theorem height_of_merged {entries : List Placed} {trie : Trie Effect}
    (h : merged entries = some trie) : trie.height = Trie.longest entries := by
  unfold merged at h
  split at h
  · cases h
  · cases h
    rw [Trie.height_insertAll]
    exact Nat.zero_max _

/-- The branches a walk begins with are as high as the longest slice that was accepted. -/
theorem Starts.height_eq (h : (after commands).Starts state action label pass start) :
    Trie.branchesHeight start.branches = Trie.longest (accepted commands action.type) := by
  obtain ⟨htrie, -⟩ := h
  rw [trie?_after] at htrie
  rw [← height_of_merged htrie, Trie.height_eq]

/--
**What was declared bounds a reduction, and not what it meets.**  After any calls, an action for
which nothing was accepted leaves any state as it is.  Any other reduction is one walk, whatever
the state is and whatever callbacks return.  The walk goes on in what it finds without counting
how far, and there is only one way to do so; it comes to its end within as many steps from the
root as the longest slice has that was accepted for the action.  No effect is run further down
than that; no container but the root is rebuilt there or further down; and what a slot there is
left with is in the result, the very node, unless it is a null that goes with its slot.
-/
theorem bounded_by_declarations (commands : List Command) (state : Node) (action : Action)
    (label : Label) :
    (accepted commands action.type = [] ∧
      ((after commands).reduce state action).run label = .ok (state, label)) ∨
    ∃ pass start, (after commands).Starts state action label pass start ∧
      ((after commands).reduce state action).run label = pass.walker.rebuildFrame start ∧
      (∀ work, pass.walker.Uncounted work ↔ work = pass.walker.rebuildFully) ∧
      pass.walker.Within start (Trie.longest (accepted commands action.type)) := by
  rcases (after commands).reduce_cases state action label with
    ⟨htrie, hrun⟩ | ⟨pass, start, hstart, hrun⟩
  · rw [trie?_after] at htrie
    exact Or.inl ⟨eq_nil_of_merged htrie, hrun⟩
  · refine Or.inr ⟨pass, start, hstart, hrun, fun _ => Walker.uncounted_iff, ?_⟩
    rw [← hstart.height_eq]
    exact Walker.within_height hstart.frame.1

/-! ### Boxes in boxes -/

/-- Makes a list of a null and a box, and then puts every box in it into two more. -/
def nest : List Command :=
  [.register [[("nest", .reaction ⟨some fun _ => .null,
      [⟨[.key "list"], some (.set fun _ _ _ => .arr [.keep .null, .obj [("box", .obj [])]])⟩,
        ⟨[.key "list", .predicate ⟨0, fun _ _ _ _ => true, none⟩], some (.set fun _ _ now =>
          if now.isNull then .keep now else .obj [("box", .obj [("box", .keep now)])])⟩]⟩)]]
    none none]

/-- A state without a box. -/
def noBox : Node :=
  .obj 0 [("list", .null)]

/-- What the last slot of the list is left with: two new boxes around the one that was there. -/
def nested : Node :=
  .obj 4 [("box", .obj 5 [("box", .obj 2 [("box", .obj 3 [])])])]

/-- The slices are two steps long: the boxes are made, and left alone from there on. -/
theorem bounded_by_declarations_nest :
    Trie.longest (accepted nest "nest") = 2 ∧
    ∃ pass start frame, (after nest).Starts noBox ⟨"nest", .null⟩ 1 pass start ∧
      (∀ work, pass.walker.Uncounted work ↔ work = pass.walker.rebuildFully) ∧
      (∀ place value now, pass.walker.Runs start place value now → place.length ≤ 2) ∧
      pass.walker.Enters start frame ∧ frame.path = [.key "list"] ∧
      pass.walker.LeftWith frame (.index 1) nested [] ∧
      ((after nest).reduce noBox ⟨"nest", .null⟩).run 1 =
        .ok (.obj 7 [("list", .arr 6 [nested])], 8) ∧
      ∃ moved, Node.Moved (.obj 7 [("list", .arr 6 [nested])]) [.key "list", .index 1] moved
        nested := by
  have hlongest : Trie.longest (accepted nest "nest") = 2 := rfl
  let below : List (Step × Trie Effect) := [(.predicate ⟨0, fun _ _ _ _ => true, none⟩ false,
    .node [.set fun _ _ now =>
      if now.isNull then .keep now else .obj [("box", .obj [("box", .keep now)])]] [])]
  let trie : Trie Effect := .node [] [(.literal (.key "list"),
    .node [.set fun _ _ _ => .arr [.keep .null, .obj [("box", .obj [])]]] below)]
  let pass : Pass := ⟨⟨"nest", .null⟩, noBox, noBox⟩
  let start : Frame Effect := ⟨[], trie.branches, noBox, 1⟩
  let list : Frame Effect := ⟨[.key "list"], below, .arr 1 [.null, .obj 2 [("box", .obj 3 [])]], 4⟩
  have hstart : (after nest).Starts noBox ⟨"nest", .null⟩ 1 pass start := .mk rfl rfl
  have hvisit : pass.walker.Visits start (.key "list") .null 1 := ⟨[], [], [], rfl, rfl⟩
  have henters : pass.walker.Enters start list := .single (.mk hvisit rfl (List.cons_ne_nil _ _))
  have hleft : pass.walker.LeftWith list (.index 1) nested [] :=
    ⟨_, 4, 6, ⟨[(.index 0, .null)], [], [some .null], rfl, rfl⟩, rfl⟩
  have hreduce : ((after nest).reduce noBox ⟨"nest", .null⟩).run 1 =
      .ok (.obj 7 [("list", .arr 6 [nested])], 8) := rfl
  rcases bounded_by_declarations nest noBox ⟨"nest", .null⟩ 1 with
    ⟨hnone, -⟩ | ⟨other, begin, hbegin, hrun, hwork, hwithin⟩
  · rw [hnone] at hlongest
    cases hlongest
  · obtain ⟨rfl, rfl⟩ := hstart.unique hbegin
    rw [hlongest] at hwithin
    obtain ⟨-, hkept⟩ := hwithin.kept list (.index 1) nested [] henters hleft (Nat.le_refl _)
    obtain ⟨moved, hmoved, -⟩ := hkept _ _ (hrun.symm.trans hreduce) (Or.inl rfl)
    exact ⟨hlongest, pass, start, list, hstart, hwork, hwithin.runs, henters, rfl, hleft, hreduce,
      moved, hmoved⟩

end Registry

end Reducer
