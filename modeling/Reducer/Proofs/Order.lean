/-
The order of effects on one slot.

Effects of one action type are merged into one trie, whichever call they came with, and where
several of them run on one slot it is the trie that tells in which order.  Effects along the
same steps lie at one node, in the order in which they were registered.  Effects along other
steps lie apart, and come in the order in which the branches were made that part them.  A
branch is made by the first effect that passes along it and used by all that come later; so a
later effect may run before an earlier one, if it runs along a branch that was there already.

`Hosts` lists the effects that run on a slot, each as a turn with its number, `SettledBy` says
that they run in the order of the list, `Precedes` which of two comes first, and
`ordered_at_slot` that the list is ordered so.  If no object has a key twice, then there is one
such list at each place.
-/
import Reducer.Proofs.Redirected
import Reducer.Proofs.Walk.Keeping
import Reducer.Proofs.Walk.Order

namespace Reducer

namespace Registry

/-- How many effects of the type were accepted before the first whose steps begin like this. -/
def opened (commands : List Command) (type : String) (front : List Step.Key) : Nat :=
  (turns commands type).findIdx fun turn => front <+: stepKeys turn.1.steps

/-- Which of two effects of a type comes first, where both run on one slot. -/
inductive Precedes (commands : List Command) (type : String) (turn other : Turn) : Prop
  /-- Along the same steps, the one that was registered first. -/
  | same (hsteps : stepKeys turn.1.steps = stepKeys other.1.steps) (hnumber : turn.2 < other.2)
  /-- Where their steps part, the one along whose step some effect was registered first. -/
  | parted (front : List Step.Key) (x : Step.Key) (rest : List Step.Key) (y : Step.Key)
      (others : List Step.Key) (hturn : stepKeys turn.1.steps = front ++ x :: rest)
      (hother : stepKeys other.1.steps = front ++ y :: others)
      (hopened : opened commands type (front ++ [x]) < opened commands type (front ++ [y]))

/-- The reduction comes to the slot at a place, and there these turns are run in this order. -/
def Hosts (commands : List Command) (state : Node) (action : Action) (label : Label) (place : Path)
    (sequence : List Turn) : Prop :=
  ∃ view start frame seg child begin,
    (Redirects.view ((after commands).redirects? action.type) action state).run label =
      .ok (view, start) ∧
    (Pass.turns ⟨action, state, view⟩).Enters
      ⟨[], (docket commands action.type).branches, state, start⟩ frame ∧
    (Pass.turns ⟨action, state, view⟩).Visits frame seg child begin ∧
    place = frame.path ++ [seg] ∧
    sequence = (Pass.turns ⟨action, state, view⟩).lineUp place seg frame.branches (some child) begin

/-- What becomes of the slot at a place is what running these turns one after the other makes. -/
def SettledBy (commands : List Command) (state : Node) (action : Action) (label : Label)
    (place : Path) (sequence : List Turn) : Prop :=
  ∃ view start frame seg child begin,
    (Redirects.view ((after commands).redirects? action.type) action state).run label =
      .ok (view, start) ∧
    (Pass.turns ⟨action, state, view⟩).Enters
      ⟨[], (docket commands action.type).branches, state, start⟩ frame ∧
    (Pass.turns ⟨action, state, view⟩).Visits frame seg child begin ∧
    place = frame.path ++ [seg] ∧
    (Prod.fst <$> (Pass.turns ⟨action, state, view⟩).settle place seg frame.branches
        (some child)).run begin =
      ((Pass.turns ⟨action, state, view⟩).actAll place sequence (some child)).run begin

variable {commands : List Command} {type : String} {state : Node} {action : Action}
  {label : Label} {turn other : Turn} {place : Path} {sequence : List Turn}

/-! ### One of two comes first -/

/-- Two lists of keys part at one place only. -/
theorem parted_unique {front path : List Step.Key} {x y x' y' : Step.Key}
    {rest others rest' others' : List Step.Key} (hne : x ≠ y) (hne' : x' ≠ y')
    (hleft : front ++ x :: rest = path ++ x' :: rest')
    (hright : front ++ y :: others = path ++ y' :: others') :
    front = path ∧ x = x' ∧ y = y' := by
  induction front generalizing path with
  | nil =>
      cases path with
      | nil => exact ⟨rfl, (List.cons.inj hleft).1, (List.cons.inj hright).1⟩
      | cons key path =>
          exact absurd ((List.cons.inj hleft).1.trans (List.cons.inj hright).1.symm) hne
  | cons key front ih =>
      cases path with
      | nil => exact absurd ((List.cons.inj hleft).1.symm.trans (List.cons.inj hright).1) hne'
      | cons other path =>
          obtain ⟨hkey, hleft⟩ := List.cons.inj hleft
          obtain ⟨hfront, hx, hy⟩ := ih hleft (List.cons.inj hright).2
          exact ⟨by rw [hkey, hfront], hx, hy⟩

theorem ne_of_opened_lt {front : List Step.Key} {x y : Step.Key}
    (h : opened commands type (front ++ [x]) < opened commands type (front ++ [y])) : x ≠ y := by
  intro heq
  rw [heq] at h
  omega

/-- Of two effects no more than one comes first. -/
theorem Precedes.asymm (h : Precedes commands type turn other) :
    ¬Precedes commands type other turn := by
  have happart : ∀ {front : List Step.Key} {x y : Step.Key} {rest others : List Step.Key},
      front ++ x :: rest = front ++ y :: others → x = y := fun heq =>
    (List.cons.inj (List.append_cancel_left heq)).1
  intro hother
  cases h with
  | same hsteps hnumber =>
      cases hother with
      | same _ hless => omega
      | parted front x rest y others hfirst hlater hopened =>
          rw [hlater, hfirst] at hsteps
          exact ne_of_opened_lt hopened (happart hsteps).symm
  | parted front x rest y others hturn hlater hopened =>
      have hne := ne_of_opened_lt hopened
      cases hother with
      | same hsteps _ =>
          rw [hlater, hturn] at hsteps
          exact hne (happart hsteps).symm
      | parted path x' rest' y' others' hback hagain hless =>
          have hne' := ne_of_opened_lt hless
          obtain ⟨hfront, hx, hy⟩ := parted_unique hne hne'.symm (hturn.symm.trans hagain)
            (hlater.symm.trans hback)
          subst hfront hx hy
          omega

/-! ### What a slot hosts -/

theorem exists_runs_iff_hosts :
    (∃ now, Runs commands state action label turn place now) ↔
      ∃ sequence, Hosts commands state action label place sequence ∧ turn ∈ sequence := by
  constructor
  · intro ⟨now, view, start, hview, frame, seg, child, begin, henters, hvisit, hplace, hruns⟩
    exact ⟨_, ⟨view, start, frame, seg, child, begin, hview, henters, hvisit, hplace, rfl⟩,
      Walker.mem_lineUp.mpr ⟨now, hruns⟩⟩
  · intro ⟨sequence, ⟨view, start, frame, seg, child, begin, hview, henters, hvisit, hplace,
      hsequence⟩, hturn⟩
    rw [hsequence] at hturn
    obtain ⟨now, hruns⟩ := Walker.mem_lineUp.mp hturn
    exact ⟨now, view, start, hview, frame, seg, child, begin, henters, hvisit, hplace, hruns⟩

theorem Hosts.settledBy (h : Hosts commands state action label place sequence) :
    SettledBy commands state action label place sequence := by
  obtain ⟨view, start, frame, seg, child, begin, hview, henters, hvisit, hplace, hsequence⟩ := h
  refine ⟨view, start, frame, seg, child, begin, hview, henters, hvisit, hplace, ?_⟩
  rw [hsequence]
  exact Walker.settle_eq_lineUp frame.branches (some child) begin

/-- Turns at one node of the docket come in the order of their numbers. -/
theorem pairwise_values {steps : List Step} {node : Trie Turn}
    (h : (docket commands type).at? steps = some node) :
    node.values.Pairwise (Precedes commands type) := by
  rw [values_docket h]
  refine ((pairwise_turns commands type).filter _).imp_of_mem ?_
  intro turn other hturn hother hlt
  have hsteps := of_decide_eq_true (List.mem_filter.mp hturn).2
  have hsame := of_decide_eq_true (List.mem_filter.mp hother).2
  exact .same (hsteps.trans hsame.symm) hlt

/-- Turns on branches that stand in order come in that order. -/
theorem precedes_of_ahead {branch later : Step × Trie Turn}
    (h : Trie.Ahead ((turns commands type).map fun turn => (turn.1.steps, turn))
      (docket commands type) branch later)
    (hturn : turn ∈ branch.2.values) (hother : other ∈ later.2.values) :
    Precedes commands type turn other := by
  obtain ⟨steps, others, hbranch, hlater, front, x, rest, y, last, hleft, hright, hopened⟩ := h
  rw [values_docket hbranch] at hturn
  rw [values_docket hlater] at hother
  have hsteps := of_decide_eq_true (List.mem_filter.mp hturn).2
  have hsame := of_decide_eq_true (List.mem_filter.mp hother).2
  refine .parted front x rest y last (hsteps.trans hleft) (hsame.trans hright) ?_
  unfold Trie.opened at hopened
  rw [List.findIdx_map, List.findIdx_map] at hopened
  exact hopened

/-- What a slot hosts comes in order. -/
theorem Hosts.pairwise (h : Hosts commands state action label place sequence) :
    sequence.Pairwise (Precedes commands action.type) := by
  obtain ⟨view, start, frame, seg, child, begin, -, henters, -, -, hsequence⟩ := h
  have hahead := henters.pairwise_ahead rfl
  rw [hsequence]
  refine List.Pairwise.sublist (Walker.sublist_lineUp _ _ _) (List.pairwise_flatMap.mpr ⟨?_, ?_⟩)
  · intro branch hbranch
    have htop := deterministic_docket commands action.type
    obtain ⟨steps, -, hat⟩ := henters.led htop rfl branch hbranch
    exact pairwise_values hat
  · refine hahead.imp fun {branch later} hfirst turn hturn other hother => ?_
    exact precedes_of_ahead hfirst hturn hother

/-- Every node that the walk comes to has distinct keys, if callbacks lay out no key twice. -/
theorem distinct_of_enters (hstate : state.Distinct)
    (hkeeps : ∀ turn ∈ turns commands action.type, turn.1.effect.Keeps Node.Distinct) {view : Node}
    {start : Label}
    (hview : (Redirects.view ((after commands).redirects? action.type) action state).run label =
      .ok (view, start)) {frame : Frame Turn}
    (h : (Pass.turns ⟨action, state, view⟩).Enters
      ⟨[], (docket commands action.type).branches, state, start⟩ frame) : frame.node.Distinct := by
  have hseen := Redirects.distinct_view hstate hview
  have hwalker : (Pass.walker ⟨action, state, view⟩).Keeps 0 (Effect.Keeps Node.Distinct)
      Node.Distinct := keeps_walker Node.kept_distinct hseen
  have hdocket : (docket commands action.type).Every (fun _ => True)
      fun turn => turn.1.effect.Keeps Node.Distinct := by
    refine Trie.every_insertAll (fun entry hentry => ?_) Trie.every_empty
    obtain ⟨turn, hturn, heq⟩ := List.mem_map.mp hentry
    rw [← heq]
    exact ⟨fun _ _ => trivial, hkeeps turn hturn⟩
  have hbegin : Frame.Kept 0 (fun turn : Turn => turn.1.effect.Keeps Node.Distinct) Node.Distinct
      ⟨[], (docket commands action.type).branches, state, start⟩ :=
    ⟨hstate, (Trie.every_iff.mp hdocket).2, Nat.zero_le _⟩
  exact ((hwalker.comap _).enters Node.inherited_distinct hbegin h).node

/-- No place is a slot twice. -/
theorem Hosts.unique (hstate : state.Distinct)
    (hkeeps : ∀ turn ∈ turns commands action.type, turn.1.effect.Keeps Node.Distinct)
    (h : Hosts commands state action label place sequence) {others : List Turn}
    (hother : Hosts commands state action label place others) : others = sequence := by
  obtain ⟨view, start, frame, seg, child, begin, hview, henters, hvisit, hplace, hsequence⟩ := h
  obtain ⟨view', start', frame', seg', child', begin', hview', henters', hvisit', hplace',
    hothers⟩ := hother
  rw [hview] at hview'
  cases hview'
  have hdistinct := fun frame => @distinct_of_enters commands state action label hstate hkeeps view
    start hview frame
  obtain ⟨hpath, hseg⟩ := List.append_inj' (hplace'.symm.trans hplace) rfl
  cases hseg
  have hframe := henters.unique hdistinct henters' hpath
  subst hframe
  obtain ⟨hchild, hbegin⟩ := hvisit.unique (hdistinct _ henters) hvisit'
  rw [hothers, hsequence, hchild, hbegin]

/--
**Effects that meet on one slot run in the order in which their branches were made.**  For
every slot that a reduction comes to there is a list of just the effects that run there, and what
becomes of the slot is what they make of it one after the other.  Along the same steps they
run in the order in which they were registered; along others, that one runs first along whose
step, where the steps part, some effect was registered first.  Where callbacks lay out no key
twice, and the state has none twice, there is one such list at every place.
-/
theorem ordered_at_slot (commands : List Command) (state : Node) (action : Action)
    (label : Label) :
    (∀ turn place, (∃ now, Runs commands state action label turn place now) ↔
      ∃ sequence, Hosts commands state action label place sequence ∧ turn ∈ sequence) ∧
    (∀ place sequence, Hosts commands state action label place sequence →
      SettledBy commands state action label place sequence ∧
      sequence.Pairwise fun turn later => Precedes commands action.type turn later ∧
        ¬Precedes commands action.type later turn) ∧
    (state.Distinct →
      (∀ turn ∈ turns commands action.type, turn.1.effect.Keeps Node.Distinct) →
      ∀ place sequence others, Hosts commands state action label place sequence →
        Hosts commands state action label place others → others = sequence) := by
  refine ⟨?_, ?_, ?_⟩
  · intro turn place
    exact exists_runs_iff_hosts
  · intro place sequence h
    exact ⟨h.settledBy, h.pairwise.imp fun hfirst => ⟨hfirst, hfirst.asymm⟩⟩
  · intro hstate hkeeps place sequence others h hother
    exact h.unique hstate hkeeps hother

/-! ### A predicate, a name, and the predicate again -/

/-- Any child at all. -/
def anything : Predicate :=
  ⟨0, fun _ _ _ _ => true, none⟩

/-- Puts a number in place of what is there. -/
def putNumber (value : Int) : Effect :=
  .set fun _ _ _ => .keep (.num (.int value))

/-- One reaction, which puts 1 anywhere, 2 at `a`, and 3 anywhere. -/
def putThrice : List Command :=
  [.register [[("put", .reaction ⟨some fun _ => .null, [⟨[.predicate anything], some (putNumber 1)⟩,
    ⟨[.key "a"], some (putNumber 2)⟩, ⟨[.predicate anything], some (putNumber 3)⟩]⟩)]] none none]

/-- A state with a number at `a`. -/
def numberAtA : Node :=
  .obj 0 [("a", .num (.int 0))]

theorem hosts_putThrice :
    ∃ sequence, Hosts putThrice numberAtA ⟨"put", .null⟩ 1 [.key "a"] sequence ∧
      sequence.map (·.2) = [0, 2, 1] :=
  ⟨_, ⟨_, _, _, .key "a", .num (.int 0), 1, rfl, .refl, ⟨[], [], [], rfl, rfl⟩, rfl, rfl⟩, rfl⟩

/-- The two along the predicate come first, and no other list belongs to the place. -/
theorem ordered_at_slot_putThrice :
    ∃ sequence, Hosts putThrice numberAtA ⟨"put", .null⟩ 1 [.key "a"] sequence ∧
      sequence.map (·.2) = [0, 2, 1] ∧
      SettledBy putThrice numberAtA ⟨"put", .null⟩ 1 [.key "a"] sequence ∧
      sequence.Pairwise (Precedes putThrice "put") ∧
      ∀ others, Hosts putThrice numberAtA ⟨"put", .null⟩ 1 [.key "a"] others →
        others = sequence := by
  obtain ⟨sequence, hhosts, hnumbers⟩ := hosts_putThrice
  obtain ⟨-, hordered, hunique⟩ := ordered_at_slot putThrice numberAtA ⟨"put", .null⟩ 1
  have hstate : numberAtA.Distinct := by
    simp [numberAtA, Node.Distinct, Node.DistinctFields, Table.Distinct, Table.keys]
  have hturns : (turns putThrice "put").map (fun turn => turn.1.effect) =
      [putNumber 1, putNumber 2, putNumber 3] := rfl
  have hkeeps : ∀ turn ∈ turns putThrice "put", turn.1.effect.Keeps Node.Distinct := by
    intro turn hturn
    have heffect : turn.1.effect ∈ [putNumber 1, putNumber 2, putNumber 3] := by
      rw [← hturns]
      exact List.mem_map.mpr ⟨turn, hturn, rfl⟩
    simp only [List.mem_cons, List.not_mem_nil, or_false] at heffect
    rcases heffect with heq | heq | heq
    all_goals
      rw [heq]
      intro _ _ _ _ _
      trivial
  obtain ⟨hsettled, hpairwise⟩ := hordered _ _ hhosts
  refine ⟨sequence, hhosts, hnumbers, hsettled, hpairwise.imp And.left, fun others hothers => ?_⟩
  exact hunique hstate hkeeps _ _ _ hhosts hothers

/--
Which one was registered first does not decide.  The effect at `a` was registered second and
runs last, so that the slot ends up with its number.
-/
theorem runs_out_of_order :
    (∃ sequence, Hosts putThrice numberAtA ⟨"put", .null⟩ 1 [.key "a"] sequence ∧
      ¬sequence.Pairwise fun turn later => turn.2 < later.2) ∧
    ((after putThrice).reduce numberAtA ⟨"put", .null⟩).run 1 =
      .ok (.obj 1 [("a", .num (.int 2))], 2) := by
  obtain ⟨sequence, hhosts, hnumbers⟩ := hosts_putThrice
  refine ⟨⟨sequence, hhosts, fun hordered => ?_⟩, rfl⟩
  have hsorted := List.pairwise_map.mpr hordered
  rw [hnumbers] at hsorted
  simp at hsorted

end Registry

end Reducer
