/-
What a trie holds.

A trie is filled by inserting values along lists of steps, and nothing else ever
changes it.  So what it holds can be said without it: the list of what was inserted,
in order.  `Trie.Holds` says how a trie and such a list belong together, and
`holds_insertAll` that a trie filled from nothing and the list it was filled with do.

The one law behind it is `at?_insert`: an insertion creates or keeps the node at every
prefix of its steps and leaves every other node as it was.

Steps are compared by what they lead to, a name, or which predicate with which state
to see.  `Step.key` is that part of a step, so that equal steps have equal keys and
lists of steps can be compared as lists.
-/
import Mathlib.Data.Finset.Card
import Mathlib.Data.List.Infix
import Reducer.Trie

namespace Reducer

namespace Step

/-- What a step is compared by: a name, or a predicate's identity and the state it sees. -/
abbrev Key := Seg ⊕ (Nat × Bool)

/-- The part of a step that is compared. -/
def key : Step → Key
  | literal seg => .inl seg
  | predicate test unmapped => .inr (test.id, unmapped)

theorem beq_iff_key {a b : Step} : (a == b) = true ↔ a.key = b.key := by
  cases a with
  | literal seg =>
      cases b with
      | literal other => simp [BEq.beq, key]
      | predicate test unmapped => simp [BEq.beq, key]
  | predicate test unmapped =>
      cases b with
      | literal other => simp [BEq.beq, key]
      | predicate other others =>
          show ((test.id == other.id) && (unmapped == others)) = true ↔ _
          simp [key]

theorem eq_literal_of_key {step : Step} {seg : Seg} (h : step.key = .inl seg) :
    step = .literal seg := by
  cases step with
  | literal other => rw [Sum.inl.inj h]
  | predicate test unmapped => cases h

end Step

/-- The steps of a path. -/
def Path.steps (path : Path) : List Step := path.map Step.literal

/-- The keys of steps. -/
def stepKeys (steps : List Step) : List Step.Key := steps.map Step.key

theorem stepKeys_steps (path : Path) : stepKeys path.steps = path.map Sum.inl := by
  rw [stepKeys, Path.steps, List.map_map]
  rfl

theorem Path.steps_injective : Function.Injective Path.steps :=
  List.map_injective_iff.mpr fun _ _ => Step.literal.inj

@[simp] theorem stepKeys_nil : stepKeys [] = [] := rfl

@[simp] theorem stepKeys_cons (step : Step) (rest : List Step) :
    stepKeys (step :: rest) = step.key :: stepKeys rest := rfl

namespace Trie

variable {α : Type}

/-! ### Looking into a trie -/

/-- The trie behind an equal step. -/
def branch? : List (Step × Trie α) → Step → Option (Trie α)
  | [], _ => none
  | (other, trie) :: rest, step => if other == step then some trie else branch? rest step

/-- The node that equal steps lead to. -/
def at? : Trie α → List Step → Option (Trie α)
  | trie, [] => some trie
  | trie, step :: rest => (branch? trie.branches step).bind (at? · rest)

/-- Inserts entries one after the other. -/
def insertAll (trie : Trie α) (entries : List (List Step × α)) : Trie α :=
  entries.foldl (fun trie entry => trie.insert entry.1 entry.2) trie

theorem branch?_eq_none_iff {branches : List (Step × Trie α)} {step : Step} :
    branch? branches step = none ↔ ∀ branch ∈ branches, branch.1.key ≠ step.key := by
  induction branches with
  | nil => simp [branch?]
  | cons branch rest ih =>
      obtain ⟨other, trie⟩ := branch
      rw [branch?, List.forall_mem_cons, ← ih]
      by_cases hsame : other.key = step.key
      · simp [Step.beq_iff_key, hsame]
      · simp [Step.beq_iff_key, hsame]

theorem branch?_congr {branches : List (Step × Trie α)} {a b : Step} (h : a.key = b.key) :
    branch? branches a = branch? branches b := by
  induction branches with
  | nil => rfl
  | cons branch rest ih =>
      obtain ⟨step, trie⟩ := branch
      have hsame : (step == a) = (step == b) := by
        rw [Bool.eq_iff_iff, Step.beq_iff_key, Step.beq_iff_key, h]
      rw [branch?, branch?, hsame, ih]

theorem branch?_graft (branches : List (Step × Trie α)) (step other : Step)
    (change : Trie α → Trie α) :
    branch? (graft branches step change) other =
      if step.key = other.key then some (change ((branch? branches step).getD empty))
      else branch? branches other := by
  induction branches with
  | nil =>
      rw [graft, branch?]
      simp only [Step.beq_iff_key, branch?]
      rfl
  | cons branch rest ih =>
      obtain ⟨first, trie⟩ := branch
      unfold graft
      by_cases hfirst : first.key = step.key
      · have hbeq : (first == step) = true := Step.beq_iff_key.mpr hfirst
        rw [if_pos hbeq]
        simp only [branch?, Step.beq_iff_key, hfirst, if_true, Option.getD_some]
        split <;> rfl
      · have hbeq : ¬(first == step) = true := fun h => hfirst (Step.beq_iff_key.mp h)
        rw [if_neg hbeq, branch?, ih, branch?]
        simp only [Step.beq_iff_key, hfirst, if_false]
        by_cases hother : first.key = other.key
        · have hne : ¬step.key = other.key := fun h => hfirst (hother.trans h.symm)
          rw [if_pos hother, if_neg hne, branch?]
          simp only [Step.beq_iff_key, hother, if_true]
        · simp only [branch?, Step.beq_iff_key, hother, if_false]

theorem at?_append (first second : List Step) :
    ∀ trie : Trie α, trie.at? (first ++ second) = (trie.at? first).bind (at? · second) := by
  induction first with
  | nil => intro trie; rfl
  | cons step rest ih =>
      intro trie
      rw [List.cons_append, at?, at?, Option.bind_assoc]
      exact congrArg _ (funext ih)

theorem at?_concat (trie : Trie α) (steps : List Step) (step : Step) :
    trie.at? (steps ++ [step]) = branch? ((trie.at? steps).getD empty).branches step := by
  rw [at?_append]
  cases trie.at? steps with
  | none => rfl
  | some node => exact Option.bind_fun_some _

theorem at?_steps_append (trie : Trie α) (path rest : Path) :
    trie.at? (path ++ rest).steps = (trie.at? path.steps).bind (at? · rest.steps) := by
  rw [Path.steps, List.map_append]
  exact at?_append _ _ trie

theorem at?_steps_singleton (trie : Trie α) (seg : Seg) :
    trie.at? (Path.steps [seg]) = branch? trie.branches (.literal seg) :=
  Option.bind_fun_some _

/-- **An insertion changes the nodes along its steps and no other.** -/
theorem at?_insert (query : List Step) :
    ∀ (trie : Trie α) (steps : List Step) (value : α),
      (trie.insert steps value).at? query =
        if stepKeys query <+: stepKeys steps then
          some (insert ((trie.at? query).getD empty) (steps.drop query.length) value)
        else trie.at? query := by
  induction query with
  | nil =>
      intro trie steps value
      rw [stepKeys_nil, if_pos List.nil_prefix]
      rfl
  | cons step rest ih =>
      intro trie steps value
      obtain ⟨values, branches⟩ := trie
      cases steps with
      | nil =>
          have hno : ¬stepKeys (step :: rest) <+: stepKeys [] := fun h => by
            simpa using List.prefix_nil.mp h
          rw [if_neg hno]
          rfl
      | cons first steps =>
          rw [insert, at?, Trie.branches, branch?_graft, at?, Trie.branches]
          simp only [stepKeys_cons, List.cons_prefix_cons, List.length_cons, List.drop_succ_cons]
          by_cases hkey : first.key = step.key
          · rw [if_pos hkey, Option.bind_some, ih, branch?_congr hkey]
            by_cases hrest : stepKeys rest <+: stepKeys steps
            · rw [if_pos hrest, if_pos ⟨hkey.symm, hrest⟩]
              cases branch? branches step with
              | some trie => rfl
              | none => cases rest <;> rfl
            · rw [if_neg hrest, if_neg fun h => hrest h.2]
              cases branch? branches step with
              | some trie => rfl
              | none =>
                  cases rest with
                  | nil => exact absurd List.nil_prefix hrest
                  | cons next rest => rfl
          · rw [if_neg hkey, if_neg fun h => hkey h.1.symm]

/-! ### What insertions add up to -/

theorem values_insert (trie : Trie α) (steps : List Step) (value : α) :
    (trie.insert steps value).values =
      if steps = [] then trie.values ++ [value] else trie.values := by
  obtain ⟨values, branches⟩ := trie
  cases steps <;> rfl

/-- Nodes are there that were there before, and those that some entry passes. -/
theorem isSome_at?_insertAll {entries : List (List Step × α)} {trie : Trie α} {steps : List Step} :
    ((trie.insertAll entries).at? steps).isSome = true ↔
      (trie.at? steps).isSome = true ∨ ∃ entry ∈ entries, stepKeys steps <+: stepKeys entry.1 := by
  induction entries generalizing trie with
  | nil => simp [insertAll]
  | cons entry rest ih =>
      show (((trie.insert entry.1 entry.2).insertAll rest).at? steps).isSome = true ↔ _
      rw [ih, at?_insert, List.exists_mem_cons_iff, ← or_assoc]
      by_cases hpasses : stepKeys steps <+: stepKeys entry.1
      · simp [hpasses]
      · simp [hpasses]

/-- A node holds what it held before, and then the values of the entries that end there. -/
theorem values_at?_insertAll {entries : List (List Step × α)} {trie node : Trie α}
    {steps : List Step} (h : (trie.insertAll entries).at? steps = some node) :
    node.values = ((trie.at? steps).getD empty).values ++
      (entries.filter fun entry => stepKeys entry.1 = stepKeys steps).map (·.2) := by
  induction entries generalizing trie with
  | nil =>
      have hsame : trie.at? steps = some node := h
      simp [hsame]
  | cons entry rest ih =>
      have hrest : node.values = _ := ih h
      rw [hrest, at?_insert]
      by_cases hends : stepKeys entry.1 = stepKeys steps
      · have hlength : entry.1.length = steps.length := by
          simpa [stepKeys] using congrArg List.length hends
        have hdrop : entry.1.drop steps.length = [] := List.drop_eq_nil_of_le (Nat.le_of_eq hlength)
        rw [if_pos (hends ▸ List.prefix_refl _), Option.getD_some, values_insert, if_pos hdrop]
        simp [hends]
      · rw [List.filter_cons_of_neg (by simpa using hends)]
        by_cases hpasses : stepKeys steps <+: stepKeys entry.1
        · have hdrop : entry.1.drop steps.length ≠ [] := by
            intro hnil
            have hle : entry.1.length ≤ steps.length := List.drop_eq_nil_iff.mp hnil
            refine hends (hpasses.eq_of_length_le ?_).symm
            simpa [stepKeys] using hle
          rw [if_pos hpasses, Option.getD_some, values_insert, if_neg hdrop]
        · rw [if_neg hpasses]

/-! ### No step twice -/

/-- No two branches of a node have equal steps, at the top and further down. -/
inductive Deterministic : Trie α → Prop
  | node {values branches} (hsteps : branches.Pairwise fun a b => (a.1 == b.1) = false)
      (hbelow : ∀ branch ∈ branches, Deterministic branch.2) : Deterministic (.node values branches)

theorem deterministic_empty : (empty : Trie α).Deterministic :=
  .node List.Pairwise.nil (by simp)

theorem mem_graft {branches : List (Step × Trie α)} {step : Step} {change : Trie α → Trie α}
    {branch : Step × Trie α} (h : branch ∈ graft branches step change) :
    branch ∈ branches ∨ ∃ trie, branch.2 = change trie ∧ branch.1.key = step.key ∧
      (branch.1 = step ∧ trie = empty ∨ (branch.1, trie) ∈ branches) := by
  induction branches with
  | nil =>
      obtain rfl := List.mem_singleton.mp h
      exact Or.inr ⟨empty, rfl, rfl, Or.inl ⟨rfl, rfl⟩⟩
  | cons first rest ih =>
      obtain ⟨other, trie⟩ := first
      unfold graft at h
      split at h
      · rename_i hsame
        rcases List.mem_cons.mp h with rfl | hrest
        · exact Or.inr ⟨trie, rfl, Step.beq_iff_key.mp hsame, Or.inr List.mem_cons_self⟩
        · exact Or.inl (List.mem_cons_of_mem _ hrest)
      · rcases List.mem_cons.mp h with rfl | hrest
        · exact Or.inl List.mem_cons_self
        · rcases ih hrest with hmem | ⟨held, hvalue, hkey, hnew | hmem⟩
          · exact Or.inl (List.mem_cons_of_mem _ hmem)
          · exact Or.inr ⟨held, hvalue, hkey, Or.inl hnew⟩
          · exact Or.inr ⟨held, hvalue, hkey, Or.inr (List.mem_cons_of_mem _ hmem)⟩

theorem pairwise_graft {branches : List (Step × Trie α)} (step : Step)
    (change : Trie α → Trie α) (h : branches.Pairwise fun a b => (a.1 == b.1) = false) :
    (graft branches step change).Pairwise fun a b => (a.1 == b.1) = false := by
  induction branches with
  | nil => exact List.pairwise_singleton _ _
  | cons first rest ih =>
      obtain ⟨other, trie⟩ := first
      obtain ⟨hfirst, hrest⟩ := List.pairwise_cons.mp h
      unfold graft
      split
      · exact List.pairwise_cons.mpr ⟨hfirst, hrest⟩
      · rename_i hne
        refine List.pairwise_cons.mpr ⟨fun branch hbranch => ?_, ih hrest⟩
        rcases mem_graft hbranch with hmem | ⟨held, -, -, ⟨hstep, -⟩ | hmem⟩
        · exact hfirst branch hmem
        · rw [hstep]
          simpa using hne
        · exact hfirst (branch.1, held) hmem

theorem deterministic_insert {steps : List Step} (value : α) :
    ∀ {trie : Trie α}, trie.Deterministic → (trie.insert steps value).Deterministic := by
  induction steps with
  | nil =>
      rintro trie ⟨hsteps, hbelow⟩
      exact .node hsteps hbelow
  | cons step rest ih =>
      rintro trie ⟨hsteps, hbelow⟩
      refine .node (pairwise_graft step _ hsteps) fun branch hbranch => ?_
      rcases mem_graft hbranch with hmem | ⟨held, hvalue, -, ⟨-, rfl⟩ | hmem⟩
      · exact hbelow branch hmem
      · rw [hvalue]
        exact ih deterministic_empty
      · rw [hvalue]
        exact ih (hbelow _ hmem)

theorem deterministic_insertAll {entries : List (List Step × α)} {trie : Trie α}
    (h : trie.Deterministic) : (trie.insertAll entries).Deterministic := by
  induction entries generalizing trie with
  | nil => exact h
  | cons entry rest ih => exact ih (deterministic_insert entry.2 h)

/-! ### Counting nodes

`places` lists the nodes below the top by the keys that lead there.  Where no step
comes twice, no place is listed twice, so their number is that of the places that
exist.
-/

/-- Induction over a trie: a node has the property once all its branches have it. -/
@[elab_as_elim]
theorem trieInduction {motive : Trie α → Prop}
    (node : ∀ values branches, (∀ branch ∈ branches, motive branch.2) →
      motive (.node values branches)) (trie : Trie α) : motive trie :=
  @Trie.rec α motive (fun branches => ∀ branch ∈ branches, motive branch.2)
    (fun branch => motive branch.2) node (by simp)
    (fun _ _ hfirst hrest => List.forall_mem_cons.mpr ⟨hfirst, hrest⟩) (fun _ _ h => h) trie

mutual

/-- The places of all nodes below the top. -/
def places : Trie α → List (List Step.Key)
  | node _ branches => placesBelow branches
termination_by structural trie => trie

/-- The places of the branches and of all nodes below them. -/
def placesBelow : List (Step × Trie α) → List (List Step.Key)
  | [] => []
  | (step, trie) :: rest => ([] :: places trie).map (step.key :: ·) ++ placesBelow rest
termination_by structural branches => branches

end

theorem placesBelow_eq (branches : List (Step × Trie α)) :
    placesBelow branches =
      branches.flatMap fun branch => ([] :: places branch.2).map (branch.1.key :: ·) := by
  induction branches with
  | nil => rfl
  | cons branch rest ih => rw [placesBelow, List.flatMap_cons, ih]

theorem length_places (trie : Trie α) : trie.places.length = trie.descendants := by
  induction trie using trieInduction with
  | node values branches ih =>
      rw [places, descendants]
      induction branches with
      | nil => rfl
      | cons branch rest ihrest =>
          obtain ⟨hfirst, hrest⟩ := List.forall_mem_cons.mp ih
          rw [placesBelow, branchesDescendants, List.length_append, ihrest hrest, List.length_map,
            List.length_cons, hfirst]
          omega

theorem mem_placesBelow {branches : List (Step × Trie α)} {place : List Step.Key} :
    place ∈ placesBelow branches ↔ ∃ branch ∈ branches, ∃ rest, place = branch.1.key :: rest ∧
      (rest = [] ∨ rest ∈ branch.2.places) := by
  rw [placesBelow_eq, List.mem_flatMap]
  refine exists_congr fun branch => and_congr_right fun _ => ?_
  simp only [List.mem_map, List.mem_cons]
  exact exists_congr fun rest => by rw [and_comm, eq_comm]

theorem branch?_of_mem {branches : List (Step × Trie α)} {branch : Step × Trie α}
    (hsteps : branches.Pairwise fun a b => (a.1 == b.1) = false) (h : branch ∈ branches) :
    branch? branches branch.1 = some branch.2 := by
  induction branches with
  | nil => cases h
  | cons first rest ih =>
      obtain ⟨step, trie⟩ := first
      obtain ⟨hfirst, hrest⟩ := List.pairwise_cons.mp hsteps
      rw [branch?]
      rcases List.mem_cons.mp h with rfl | hmem
      · rw [if_pos (Step.beq_iff_key.mpr rfl)]
      · rw [hfirst branch hmem, if_neg Bool.false_ne_true, ih hrest hmem]

theorem mem_of_branch? {branches : List (Step × Trie α)} {step : Step} {trie : Trie α}
    (h : branch? branches step = some trie) :
    ∃ other, other.key = step.key ∧ (other, trie) ∈ branches := by
  induction branches with
  | nil => cases h
  | cons first rest ih =>
      obtain ⟨other, held⟩ := first
      rw [branch?] at h
      split at h
      · rename_i hsame
        cases h
        exact ⟨other, Step.beq_iff_key.mp hsame, List.mem_cons_self⟩
      · obtain ⟨found, hkey, hmem⟩ := ih h
        exact ⟨found, hkey, List.mem_cons_of_mem _ hmem⟩

theorem Deterministic.at? {steps : List Step} :
    ∀ {trie node : Trie α}, trie.Deterministic → trie.at? steps = some node →
      node.Deterministic := by
  induction steps with
  | nil =>
      intro trie node h hnode
      cases hnode
      exact h
  | cons step rest ih =>
      rintro _ node ⟨hsteps, hbelow⟩ hnode
      rw [Trie.at?, Option.bind_eq_some_iff] at hnode
      obtain ⟨trie, htrie, hnode⟩ := hnode
      obtain ⟨other, -, hmem⟩ := mem_of_branch? htrie
      exact ih (hbelow _ hmem) hnode

/-- A branch of a node is found behind the steps to the node. -/
theorem Deterministic.at?_concat {top : Trie α} (htop : top.Deterministic) {steps : List Step}
    {node : Trie α} (hnode : top.at? steps = some node) {branch : Step × Trie α}
    (hbranch : branch ∈ node.branches) : top.at? (steps ++ [branch.1]) = some branch.2 := by
  obtain ⟨hsteps, -⟩ := htop.at? hnode
  rw [Trie.at?_concat, hnode, Option.getD_some]
  exact branch?_of_mem hsteps hbranch

theorem mem_places {trie : Trie α} (h : trie.Deterministic) {place : List Step.Key} :
    place ∈ trie.places ↔
      ∃ steps, steps ≠ [] ∧ stepKeys steps = place ∧ (trie.at? steps).isSome = true := by
  induction h generalizing place with
  | @node values branches hsteps hbelow ih =>
      rw [places, mem_placesBelow]
      constructor
      · rintro ⟨branch, hbranch, rest, rfl, hrest⟩
        have hfound := branch?_of_mem hsteps hbranch
        rcases hrest with rfl | hdeeper
        · refine ⟨[branch.1], by simp, rfl, ?_⟩
          rw [at?, Trie.branches, hfound]
          rfl
        · obtain ⟨steps, -, rfl, hsome⟩ := (ih branch hbranch).mp hdeeper
          refine ⟨branch.1 :: steps, by simp, rfl, ?_⟩
          rw [at?, Trie.branches, hfound]
          exact hsome
      · rintro ⟨steps, hsteps, rfl, hsome⟩
        obtain ⟨step, rest, rfl⟩ := List.exists_cons_of_ne_nil hsteps
        obtain ⟨node, hnode⟩ := Option.isSome_iff_exists.mp hsome
        rw [at?, Option.bind_eq_some_iff] at hnode
        obtain ⟨trie, htrie, hnode⟩ := hnode
        obtain ⟨other, hkey, hmem⟩ := mem_of_branch? htrie
        refine ⟨(other, trie), hmem, stepKeys rest, by rw [stepKeys_cons, hkey], ?_⟩
        by_cases hrest : rest = []
        · exact Or.inl (by rw [hrest]; rfl)
        · exact Or.inr ((ih (other, trie) hmem).mpr ⟨rest, hrest, rfl, by rw [hnode]; rfl⟩)

theorem nodup_places {trie : Trie α} (h : trie.Deterministic) : trie.places.Nodup := by
  induction h with
  | @node values branches hsteps hbelow ih =>
      rw [places, placesBelow_eq, List.nodup_flatMap]
      constructor
      · intro branch hbranch
        refine List.Nodup.map (fun a b hab => (List.cons.inj hab).2) ?_
        refine List.nodup_cons.mpr ⟨fun hnil => ?_, ih branch hbranch⟩
        obtain ⟨steps, hne, hkeys, -⟩ := (mem_places (hbelow branch hbranch)).mp hnil
        exact hne (List.map_eq_nil_iff.mp hkeys)
      · refine hsteps.imp fun {a b} hab => ?_
        rintro place ha hb
        obtain ⟨rest, -, rfl⟩ := List.mem_map.mp ha
        obtain ⟨other, -, heq⟩ := List.mem_map.mp hb
        have hkey : a.1.key = b.1.key := (List.cons.inj heq).1.symm
        rw [Step.beq_iff_key.mpr hkey] at hab
        cases hab

/-! ### A trie and its entries -/

/-- The trie is what comes of inserting the entries, told without inserting. -/
structure Holds (trie : Trie α) (entries : List (List Step × α)) : Prop where
  /-- A node is where some entry passes or ends. -/
  node_iff : ∀ steps, (trie.at? steps).isSome = true ↔
    ∃ entry ∈ entries, stepKeys steps <+: stepKeys entry.1
  /-- A node has the values of the entries that end there, in order. -/
  values_eq : ∀ steps node, trie.at? steps = some node →
    node.values = (entries.filter fun entry => stepKeys entry.1 = stepKeys steps).map (·.2)
  /-- No node has two branches with equal steps. -/
  deterministic : trie.Deterministic
  /-- There are as many nodes below the top as the entries have non-empty prefixes. -/
  descendants_eq : trie.descendants =
    (entries.flatMap fun entry => (stepKeys entry.1).inits.filter (· ≠ [])).toFinset.card

/-- **A trie filled from nothing holds what it was filled with.** -/
theorem holds_insertAll {entries : List (List Step × α)} (hentries : entries ≠ []) :
    (empty.insertAll entries).Holds entries := by
  have hdeterministic : (empty.insertAll entries).Deterministic :=
    deterministic_insertAll deterministic_empty
  have hnode : ∀ steps, ((empty.insertAll entries).at? steps).isSome = true ↔
      ∃ entry ∈ entries, stepKeys steps <+: stepKeys entry.1 := by
    intro steps
    rw [isSome_at?_insertAll]
    constructor
    · rintro (htop | hpasses)
      · obtain ⟨entry, hentry⟩ := List.exists_mem_of_ne_nil entries hentries
        cases steps with
        | nil => exact ⟨entry, hentry, List.nil_prefix⟩
        | cons step rest => cases htop
      · exact hpasses
    · exact Or.inr
  refine ⟨hnode, fun steps node h => ?_, hdeterministic, ?_⟩
  · rw [values_at?_insertAll h]
    cases steps <;> rfl
  · rw [← length_places, ← List.toFinset_card_of_nodup (nodup_places hdeterministic)]
    refine congrArg Finset.card (Finset.ext fun place => ?_)
    rw [List.mem_toFinset, List.mem_toFinset, mem_places hdeterministic, List.mem_flatMap]
    constructor
    · rintro ⟨steps, hne, rfl, hsome⟩
      obtain ⟨entry, hentry, hpasses⟩ := (hnode steps).mp hsome
      refine ⟨entry, hentry, List.mem_filter.mpr ⟨(List.mem_inits _ _).mpr hpasses, ?_⟩⟩
      simpa [stepKeys] using hne
    · rintro ⟨entry, hentry, hplace⟩
      obtain ⟨hpasses, hne⟩ := List.mem_filter.mp hplace
      have hpasses := (List.mem_inits _ _).mp hpasses
      have hplace : stepKeys (entry.1.take place.length) = place := by
        rw [stepKeys, List.map_take]
        exact (List.prefix_iff_eq_take.mp hpasses).symm
      refine ⟨entry.1.take place.length, ?_, hplace, ?_⟩
      · intro hnil
        rw [hnil] at hplace
        simp [← hplace] at hne
      · exact (hnode _).mpr ⟨entry, hentry, hplace.symm ▸ hpasses⟩

/-- Wherever a trie branches, some entry goes on. -/
theorem Holds.exists_of_branch {trie node : Trie α} {entries : List (List Step × α)}
    (h : trie.Holds entries) {steps : List Step} (hnode : trie.at? steps = some node)
    {branch : Step × Trie α} (hbranch : branch ∈ node.branches) :
    ∃ entry ∈ entries, stepKeys (steps ++ [branch.1]) <+: stepKeys entry.1 := by
  refine (h.node_iff _).mp ?_
  rw [h.deterministic.at?_concat hnode hbranch]
  rfl

/-- Every entry lies at its steps. -/
theorem Holds.at?_of_mem {trie : Trie α} {entries : List (List Step × α)} (h : trie.Holds entries)
    {entry : List Step × α} (hentry : entry ∈ entries) :
    ∃ node, trie.at? entry.1 = some node ∧ entry.2 ∈ node.values := by
  have hsome : (trie.at? entry.1).isSome = true :=
    (h.node_iff entry.1).mpr ⟨entry, hentry, List.prefix_refl _⟩
  obtain ⟨node, hnode⟩ := Option.isSome_iff_exists.mp hsome
  refine ⟨node, hnode, ?_⟩
  rw [h.values_eq entry.1 node hnode]
  exact List.mem_map.mpr ⟨entry, List.mem_filter.mpr ⟨hentry, by simp⟩, rfl⟩

end Trie

end Reducer
