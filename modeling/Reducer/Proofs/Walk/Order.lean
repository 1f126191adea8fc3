/-
The order in which a slot is acted on.

Many branches may lead to one slot, and each may hold many values.  `lineUp` lists the values
whose turns come, in order, up to one that fails; settling the slot is acting with these and
nothing else, `settle_eq_lineUp`.

They come in the order of the branches, and the branches of a frame come in an order that the
trie has laid down.  A node has its branches in the order in which they were first passed when
the trie was filled: `Trie.opened` counts the entries before the first that passes.  Further
down, branches below one node stand before all those below a later one.  So of two places in a
trie that lead to one slot, that one comes first which was opened earlier where their steps
part, `Trie.Earlier`; a place is not asked again when it was itself filled.

If no object has a key twice, every place has one slot, and it is visited once.
-/
import Reducer.Proofs.Walk.Runs

namespace Reducer

open Build

/-! ### Which branch was there first -/

namespace Trie

variable {α : Type}

/-- How many entries come before the first that passes along these keys. -/
def opened (entries : List (List Step × α)) (front : List Step.Key) : Nat :=
  entries.findIdx fun entry => front <+: stepKeys entry.1

/-- Where two lists of keys part, the one was opened before the other. -/
def Earlier (entries : List (List Step × α)) (left right : List Step.Key) : Prop :=
  ∃ front x rest y others, left = front ++ x :: rest ∧ right = front ++ y :: others ∧
    opened entries (front ++ [x]) < opened entries (front ++ [y])

variable {entries : List (List Step × α)} {top node : Trie α} {steps : List Step}

theorem Earlier.append {left right : List Step.Key} (h : Earlier entries left right)
    (rest others : List Step.Key) : Earlier entries (left ++ rest) (right ++ others) := by
  obtain ⟨front, x, tail, y, last, hleft, hright, hopened⟩ := h
  exact ⟨front, x, tail ++ rest, y, last ++ others, by simp [hleft], by simp [hright], hopened⟩

theorem opened_lt_iff {front : List Step.Key} :
    opened entries front < entries.length ↔ ∃ entry ∈ entries, front <+: stepKeys entry.1 := by
  simp [opened, List.findIdx_lt_length]

theorem opened_append_of_lt {front : List Step.Key} (h : opened entries front < entries.length)
    (added : List (List Step × α)) : opened (entries ++ added) front = opened entries front := by
  unfold opened at *
  rw [List.findIdx_append, if_pos h]

theorem le_opened_append {front : List Step.Key} (h : ¬opened entries front < entries.length)
    (added : List (List Step × α)) : entries.length ≤ opened (entries ++ added) front := by
  unfold opened at *
  rw [List.findIdx_append, if_neg h]
  omega

/-- The steps of branches, by what they are compared by. -/
def branchKeys (branches : List (Step × Trie α)) : List Step.Key :=
  branches.map fun branch => branch.1.key

/-- A graft keeps the branches in order, and adds its own at the end if it was missing. -/
theorem branchKeys_graft (branches : List (Step × Trie α)) (step : Step)
    (change : Trie α → Trie α) :
    branchKeys (graft branches step change) = branchKeys branches ∨
      step.key ∉ branchKeys branches ∧
        branchKeys (graft branches step change) = branchKeys branches ++ [step.key] := by
  induction branches with
  | nil => exact Or.inr ⟨List.not_mem_nil, rfl⟩
  | cons branch rest ih =>
      obtain ⟨other, trie⟩ := branch
      rw [graft]
      by_cases hsame : (other == step) = true
      · rw [if_pos hsame]
        exact Or.inl rfl
      · rw [if_neg hsame]
        have hne : step.key ≠ other.key := fun h => hsame (Step.beq_iff_key.mpr h.symm)
        rcases ih with hkept | ⟨hmissing, hadded⟩
        · exact Or.inl (congrArg (other.key :: ·) hkept)
        · refine Or.inr ⟨?_, congrArg (other.key :: ·) hadded⟩
          intro hmem
          rcases List.mem_cons.mp hmem with hfirst | hlater
          · exact hne hfirst
          · exact hmissing hlater

theorem mem_branchKeys_iff {branches : List (Step × Trie α)} {step : Step} :
    step.key ∈ branchKeys branches ↔ (branch? branches step).isSome = true := by
  constructor
  · intro h
    by_contra hnone
    rw [Option.not_isSome_iff_eq_none, branch?_eq_none_iff] at hnone
    obtain ⟨branch, hbranch, hkey⟩ := List.mem_map.mp h
    exact hnone branch hbranch hkey
  · intro h
    obtain ⟨trie, htrie⟩ := Option.isSome_iff_exists.mp h
    obtain ⟨other, hkey, hmem⟩ := mem_of_branch? htrie
    exact List.mem_map.mpr ⟨(other, trie), hmem, hkey⟩

/-- A node has a branch by a step just where some entry passes along it. -/
theorem mem_branchKeys_insertAll {step : Step} :
    step.key ∈ branchKeys (((empty.insertAll entries).at? steps).getD empty).branches ↔
      opened entries (stepKeys steps ++ [step.key]) < entries.length := by
  have hnone : ((empty : Trie α).at? (steps ++ [step])).isSome ≠ true := by
    cases steps <;> exact Bool.false_ne_true
  have hkeys : stepKeys (steps ++ [step]) = stepKeys steps ++ [step.key] := List.map_append
  rw [mem_branchKeys_iff, ← at?_concat, isSome_at?_insertAll, or_iff_right hnone, opened_lt_iff,
    hkeys]

theorem branchKeys_insert {trie : Trie α} {rest : List Step} {value : α} :
    branchKeys (trie.insert rest value).branches = branchKeys trie.branches ∨
      ∃ step others, rest = step :: others ∧ step.key ∉ branchKeys trie.branches ∧
        branchKeys (trie.insert rest value).branches = branchKeys trie.branches ++ [step.key] := by
  obtain ⟨values, branches⟩ := trie
  cases rest with
  | nil => exact Or.inl rfl
  | cons step others =>
      rcases branchKeys_graft branches step fun trie => insert trie others value with
        hkept | ⟨hmissing, hadded⟩
      · exact Or.inl hkept
      · exact Or.inr ⟨step, others, rfl, hmissing, hadded⟩

/-- **A node has its branches in the order in which they were first passed.** -/
theorem pairwise_opened (entries : List (List Step × α)) (steps : List Step) :
    (branchKeys (((empty.insertAll entries).at? steps).getD empty).branches).Pairwise fun x y =>
      opened entries (stepKeys steps ++ [x]) < opened entries (stepKeys steps ++ [y]) := by
  induction entries using List.reverseRecOn with
  | nil =>
      cases steps <;> exact List.Pairwise.nil
  | append_singleton front entry ih =>
      have hinsert : empty.insertAll (front ++ [entry]) =
          (empty.insertAll front).insert entry.1 entry.2 := List.foldl_append
      -- Branches that were there keep their order, since they were opened by earlier entries.
      have hold : ∀ x ∈ branchKeys (((empty.insertAll front).at? steps).getD empty).branches,
          opened front (stepKeys steps ++ [x]) < front.length ∧
            opened (front ++ [entry]) (stepKeys steps ++ [x]) =
              opened front (stepKeys steps ++ [x]) := by
        intro x hx
        obtain ⟨branch, -, hkey⟩ := List.mem_map.mp hx
        subst hkey
        have hopened := mem_branchKeys_insertAll.mp hx
        exact ⟨hopened, opened_append_of_lt hopened [entry]⟩
      have hkept : (branchKeys (((empty.insertAll front).at? steps).getD empty).branches).Pairwise
          fun x y => opened (front ++ [entry]) (stepKeys steps ++ [x]) <
            opened (front ++ [entry]) (stepKeys steps ++ [y]) := by
        refine ih.imp_of_mem fun {x y} hx hy hlt => ?_
        rw [(hold x hx).2, (hold y hy).2]
        exact hlt
      rw [hinsert, at?_insert]
      by_cases hpasses : stepKeys steps <+: stepKeys entry.1
      · rw [if_pos hpasses, Option.getD_some]
        rcases branchKeys_insert with hsame | ⟨step, _, _, hmissing, hadded⟩
        · rw [hsame]
          exact hkept
        · rw [hadded]
          refine List.pairwise_append.mpr ⟨hkept, List.pairwise_singleton _ _, ?_⟩
          intro x hx y hy
          rw [List.mem_singleton.mp hy, (hold x hx).2]
          have hlate := le_opened_append (mt mem_branchKeys_insertAll.mpr hmissing) [entry]
          have hsoon := (hold x hx).1
          omega
      · rw [if_neg hpasses]
        exact hkept

/-! ### Branches far apart -/

/-- Two branches lie in the trie, and the one at earlier steps. -/
def Ahead (entries : List (List Step × α)) (top : Trie α) (branch other : Step × Trie α) : Prop :=
  ∃ steps others, top.at? (steps ++ [branch.1]) = some branch.2 ∧
    top.at? (others ++ [other.1]) = some other.2 ∧
    Earlier entries (stepKeys (steps ++ [branch.1])) (stepKeys (others ++ [other.1]))

/-- The branches of one node stand in order. -/
theorem pairwise_ahead (hnode : (empty.insertAll entries).at? steps = some node) :
    node.branches.Pairwise (Ahead entries (empty.insertAll entries)) := by
  have htop : (empty.insertAll entries).Deterministic :=
    deterministic_insertAll deterministic_empty
  have hopened := pairwise_opened entries steps
  rw [hnode, Option.getD_some, branchKeys, List.pairwise_map] at hopened
  refine hopened.imp_of_mem fun {branch other} hbranch hother hlt => ?_
  refine ⟨steps, steps, htop.at?_concat hnode hbranch, htop.at?_concat hnode hother,
    stepKeys steps, branch.1.key, [], other.1.key, [], List.map_append, List.map_append, hlt⟩

/-- Below branches that stand in order all branches do. -/
theorem Ahead.below (htop : top.Deterministic) {branch other inner deeper : Step × Trie α}
    (h : Ahead entries top branch other) (hinner : inner ∈ branch.2.branches)
    (hdeeper : deeper ∈ other.2.branches) : Ahead entries top inner deeper := by
  obtain ⟨steps, others, hbranch, hother, hearlier⟩ := h
  refine ⟨steps ++ [branch.1], others ++ [other.1], htop.at?_concat hbranch hinner,
    htop.at?_concat hother hdeeper, ?_⟩
  have hlonger := hearlier.append [inner.1.key] [deeper.1.key]
  simpa [stepKeys] using hlonger

end Trie

namespace Node

/-- No slot comes twice, if no key does. -/
theorem nodup_slots {node : Node} (h : node.Distinct) : node.slots.Nodup := by
  refine List.Nodup.of_map (fun slot => slot.1) ?_
  cases node with
  | arr label items =>
      rw [slots, List.map_map]
      have hindices : (items.zipIdx.map fun item => item.2).Nodup := by
        rw [List.zipIdx_map_snd]
        exact List.nodup_range'
      have hsegs := hindices.map fun _ _ => Seg.index.inj
      rw [List.map_map] at hsegs
      exact hsegs
  | obj label fields =>
      rw [slots, List.map_map]
      have hsegs := (distinct_obj.mp h).1.map fun _ _ => Seg.key.inj
      rw [Table.keys, List.map_map] at hsegs
      exact hsegs
  | _ => exact List.nodup_nil

end Node

namespace Walker

variable {α : Type} (walker : Walker Build α)

/-! ### What lines up at a slot -/

/-- Of values that are run one after the other, those whose turn comes. -/
def handed (path : Path) : List α → Option Node → Label → List α
  | [], _, _ => []
  | value :: rest, current, label =>
      value :: match (walker.act path value current).run label with
        | .ok (next, between) => handed path rest next between
        | .error _ => []

/-- Of the values on branches that are tried on a slot, those whose turn comes, in order. -/
def lineUp (path : Path) (seg : Seg) : List (Step × Trie α) → Option Node → Label → List α
  | [], _, _ => []
  | (step, trie) :: rest, current, label =>
      if walker.leads step (current.getD .null) seg then
        walker.handed path trie.values current label ++
          match (walker.actAll path trie.values current).run label with
          | .ok (next, between) => lineUp path seg rest next between
          | .error _ => []
      else lineUp path seg rest current label

variable {walker} {path : Path} {seg : Seg}

theorem mem_handed {values : List α} {value : α} :
    ∀ {current : Option Node} {label : Label}, value ∈ walker.handed path values current label ↔
      ∃ now, walker.Hands path values current label value now := by
  induction values with
  | nil =>
      intro current label
      constructor
      · intro h
        cases h
      · intro ⟨now, h⟩
        cases h
  | cons first rest ih =>
      intro current label
      rw [handed]
      constructor
      · intro h
        rcases List.mem_cons.mp h with heq | hlater
        · exact ⟨current, heq ▸ .here⟩
        · cases hact : (walker.act path first current).run label with
          | error fault =>
              rw [hact] at hlater
              cases hlater
          | ok made =>
              rw [hact] at hlater
              obtain ⟨now, hnow⟩ := ih.mp hlater
              exact ⟨now, .later hact hnow⟩
      · intro ⟨now, h⟩
        cases h with
        | here => exact List.mem_cons_self
        | later hact hrest =>
            rw [hact]
            exact List.mem_cons_of_mem _ (ih.mpr ⟨now, hrest⟩)

/-- What lines up at a slot are the values that are run there. -/
theorem mem_lineUp {branches : List (Step × Trie α)} {value : α} :
    ∀ {current : Option Node} {label : Label},
      value ∈ walker.lineUp path seg branches current label ↔
        ∃ now, walker.RunsIn path seg branches current label value now := by
  induction branches with
  | nil =>
      intro current label
      constructor
      · intro h
        cases h
      · intro ⟨now, h⟩
        cases h
  | cons branch rest ih =>
      intro current label
      obtain ⟨step, trie⟩ := branch
      rw [lineUp]
      by_cases hleads : walker.leads step (current.getD .null) seg = true
      · rw [if_pos hleads, List.mem_append, mem_handed]
        constructor
        · intro h
          rcases h with ⟨now, hnow⟩ | hlater
          · exact ⟨now, .here hleads hnow⟩
          · cases hact : (walker.actAll path trie.values current).run label with
            | error fault =>
                rw [hact] at hlater
                cases hlater
            | ok made =>
                rw [hact] at hlater
                obtain ⟨now, hnow⟩ := ih.mp hlater
                exact ⟨now, .after hleads hact hnow⟩
        · intro ⟨now, h⟩
          cases h with
          | here _ hhands => exact Or.inl ⟨now, hhands⟩
          | skip hmissed _ =>
              rw [hleads] at hmissed
              cases hmissed
          | after _ hact hrest =>
              rw [hact]
              exact Or.inr (ih.mpr ⟨now, hrest⟩)
      · rw [if_neg hleads, ih]
        constructor
        · intro ⟨now, hnow⟩
          exact ⟨now, .skip (Bool.eq_false_iff.mpr hleads) hnow⟩
        · intro ⟨now, h⟩
          cases h with
          | here hfound _ => exact absurd hfound hleads
          | skip _ hrest => exact ⟨now, hrest⟩
          | after hfound _ _ => exact absurd hfound hleads

theorem actAll_append (values others : List α) :
    ∀ current : Option Node, walker.actAll path (values ++ others) current =
      walker.actAll path values current >>= walker.actAll path others := by
  induction values with
  | nil =>
      intro current
      rw [List.nil_append, actAll, pure_bind]
  | cons value rest ih =>
      intro current
      rw [List.cons_append, actAll, actAll, bind_assoc]
      exact bind_congr ih

/-- Acting with all values is acting with those whose turn comes. -/
theorem actAll_handed (values : List α) :
    ∀ (current : Option Node) (label : Label),
      (walker.actAll path (walker.handed path values current label) current).run label =
        (walker.actAll path values current).run label := by
  induction values with
  | nil =>
      intro current label
      rfl
  | cons value rest ih =>
      intro current label
      rw [handed, actAll, actAll, run_bind, run_bind]
      cases (walker.act path value current).run label with
      | error fault => rfl
      | ok made => exact ih made.1 made.2

/-- **A slot is settled by what lines up there, in that order.** -/
theorem settle_eq_lineUp (branches : List (Step × Trie α)) :
    ∀ (current : Option Node) (label : Label),
      (Prod.fst <$> walker.settle path seg branches current).run label =
        (walker.actAll path (walker.lineUp path seg branches current label) current).run label := by
  induction branches with
  | nil =>
      intro current label
      rfl
  | cons branch rest ih =>
      intro current label
      obtain ⟨step, trie⟩ := branch
      rw [settle, lineUp]
      by_cases hleads : walker.leads step (current.getD .null) seg = true
      · rw [if_pos hleads, if_pos hleads, actAll_append, map_bind, run_bind, run_bind,
          actAll_handed]
        cases (walker.actAll path trie.values current).run label with
        | error fault => rfl
        | ok made =>
            dsimp only
            rw [← ih, map_bind]
            simp only [map_pure]
            rfl
      · rw [if_neg hleads, if_neg hleads]
        exact ih current label

/-! ### In the order of the branches -/

theorem sublist_handed (values : List α) :
    ∀ (current : Option Node) (label : Label),
      (walker.handed path values current label).Sublist values := by
  induction values with
  | nil =>
      intro current label
      exact List.Sublist.refl _
  | cons value rest ih =>
      intro current label
      rw [handed]
      refine List.Sublist.cons_cons value ?_
      split
      · exact ih _ _
      · exact List.nil_sublist _

theorem sublist_lineUp (branches : List (Step × Trie α)) :
    ∀ (current : Option Node) (label : Label),
      (walker.lineUp path seg branches current label).Sublist
        (branches.flatMap fun branch => branch.2.values) := by
  induction branches with
  | nil =>
      intro current label
      exact List.Sublist.refl _
  | cons branch rest ih =>
      intro current label
      obtain ⟨step, trie⟩ := branch
      rw [lineUp, List.flatMap_cons]
      by_cases hleads : walker.leads step (current.getD .null) seg = true
      · rw [if_pos hleads]
        refine List.Sublist.append (sublist_handed _ _ _) ?_
        split
        · exact ih _ _
        · exact List.nil_sublist _
      · rw [if_neg hleads]
        exact (ih _ _).trans (List.sublist_append_right _ _)

/-- The branches of the next level are those below some of the branches of this one, in order. -/
theorem below_of_settle {branches : List (Step × Trie α)} :
    ∀ {below : List (Step × Trie α)} {current outcome : Option Node} {label after : Label},
      (walker.settle path seg branches current).run label = .ok ((outcome, below), after) →
      ∃ chosen, List.Sublist chosen branches ∧
        below = chosen.flatMap fun branch => branch.2.branches := by
  induction branches with
  | nil =>
      intro below current outcome label after h
      cases h
      exact ⟨[], List.Sublist.refl _, rfl⟩
  | cons branch rest ih =>
      intro below current outcome label after h
      obtain ⟨step, trie⟩ := branch
      rw [settle] at h
      split at h
      · obtain ⟨next, between, -, h⟩ := run_bind_ok.mp h
        obtain ⟨⟨last, others⟩, ending, hrest, h⟩ := run_bind_ok.mp h
        cases h
        obtain ⟨chosen, hchosen, hothers⟩ := ih hrest
        exact ⟨(step, trie) :: chosen, hchosen.cons_cons _, congrArg (trie.branches ++ ·) hothers⟩
      · obtain ⟨chosen, hchosen, hbelow⟩ := ih h
        exact ⟨chosen, hchosen.cons _, hbelow⟩

/-- **The branches of every frame stand in the order that the trie has laid down.** -/
theorem Enters.pairwise_ahead {entries : List (List Step × α)} {start frame : Frame α}
    (hstart : start.branches = (Trie.empty.insertAll entries).branches)
    (h : walker.Enters start frame) :
    frame.branches.Pairwise (Trie.Ahead entries (Trie.empty.insertAll entries)) := by
  have htop : (Trie.empty.insertAll entries).Deterministic :=
    Trie.deterministic_insertAll Trie.deterministic_empty
  induction h with
  | refl =>
      rw [hstart]
      have hnode : (Trie.empty.insertAll entries).at? [] = some (Trie.empty.insertAll entries) :=
        rfl
      exact Trie.pairwise_ahead hnode
  | @tail frame deeper henters hlast ih =>
      obtain ⟨-, hsettle, -⟩ := hlast
      obtain ⟨chosen, hchosen, hbelow⟩ := below_of_settle hsettle
      dsimp only
      rw [hbelow, List.pairwise_flatMap]
      constructor
      · intro branch hbranch
        obtain ⟨steps, -, hat⟩ := Enters.led htop hstart henters branch (hchosen.subset hbranch)
        exact Trie.pairwise_ahead hat
      · refine (ih.sublist hchosen).imp fun {branch other} hahead inner hinner deeper hdeeper => ?_
        exact hahead.below htop hinner hdeeper

/-! ### One visit at each place -/

variable {start frame deeper other : Frame α}

/-- A frame visits a slot once, if no two of its slots have one name. -/
theorem Visits.unique (hdistinct : frame.node.Distinct) {child made : Node} {begin label : Label}
    (h : walker.Visits frame seg child begin) (hother : walker.Visits frame seg made label) :
    made = child ∧ label = begin := by
  have hsame : made = child := by
    have hchild := Node.child?_of_mem_slots hdistinct h.mem_slots
    rw [Node.child?_of_mem_slots hdistinct hother.mem_slots] at hchild
    exact Option.some.inj hchild
  subst hsame
  obtain ⟨before, after, outcomes, hslots, hbefore⟩ := h
  obtain ⟨front, rest, results, hothers, hfront⟩ := hother
  have hnodup := Node.nodup_slots hdistinct
  rw [hslots] at hothers hnodup
  have hfresh := (List.nodup_cons.mp (List.nodup_middle.mp hnodup)).1
  rw [List.mem_append, not_or] at hfresh
  obtain ⟨heq, -, -⟩ := (List.append_cons_inj_of_notMem hfresh.1 hfresh.2).mp hothers
  rw [← heq, hbefore] at hfront
  cases hfront
  exact ⟨rfl, rfl⟩

theorem Descends.unique (hdistinct : frame.node.Distinct) (h : walker.Descends frame deeper)
    (hother : walker.Descends frame other) (hpath : other.path = deeper.path) :
    other = deeper := by
  obtain ⟨hvisit, hsettle, -⟩ := h
  obtain ⟨hvisit', hsettle', -⟩ := hother
  obtain ⟨-, hseg⟩ := List.append_inj' hpath rfl
  cases hseg
  obtain ⟨hchild, hlabel⟩ := hvisit.unique hdistinct hvisit'
  subst hchild hlabel
  rw [hsettle] at hsettle'
  cases hsettle'
  rfl

theorem Enters.not_enters_above {path : Path} {seg : Seg} (hpath : start.path = path ++ [seg])
    (h : walker.Enters start frame) : frame.path ≠ path := by
  intro heq
  have hle := h.prefix_path.length_le
  rw [hpath, heq, List.length_append, List.length_singleton] at hle
  omega

/-- **A walk rebuilds one frame at a place, if no node on the way has a key twice.** -/
theorem Enters.unique (hdistinct : ∀ frame, walker.Enters start frame → frame.node.Distinct)
    (h : walker.Enters start frame) :
    ∀ {other : Frame α}, walker.Enters start other → other.path = frame.path → other = frame := by
  induction h with
  | refl =>
      intro other hother hpath
      rcases Relation.ReflTransGen.cases_tail hother with heq | ⟨middle, hmiddle, hlast⟩
      · exact heq
      · obtain ⟨seg, hdeeper⟩ := hlast.path_eq
        exact absurd rfl (Enters.not_enters_above (hpath.symm.trans hdeeper) hmiddle)
  | @tail frame deeper henters hlast ih =>
      intro other hother hpath
      obtain ⟨seg, hdeeper⟩ := hlast.path_eq
      rcases Relation.ReflTransGen.cases_tail hother with heq | ⟨middle, hmiddle, hdescends⟩
      · subst heq
        exact absurd rfl (Enters.not_enters_above (hpath.trans hdeeper) henters)
      · obtain ⟨name, hlower⟩ := hdescends.path_eq
        obtain ⟨habove, -⟩ := List.append_inj' (hlower.symm.trans (hpath.trans hdeeper)) rfl
        have hsame := ih hmiddle habove
        subst hsame
        exact hlast.unique (hdistinct _ hmiddle) hdescends hpath

end Walker

end Reducer
