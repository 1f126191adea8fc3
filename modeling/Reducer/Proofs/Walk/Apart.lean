/-
Walks that keep out of each other's way.

A trie may lead by keys to some places before it does anything: `Towards` says that up to
those places it has no values and branches only to get there, and says nothing of what
comes behind them.  On the way a walk changes no slot.  It rebuilds the containers it
passes and leaves the rest of them alone, so a node away from all the places is found
where it was.

Two walks towards places of which none lies on the way to another can be done in either
order.  They have nothing but ways in common, and at each slot there either one of the two
does nothing, or both only pass and go on below.  That is the induction of
`rebuild_comm`, on the levels of both walks at once; what it needs of the walks is that
they act by themselves, without a supply of labels, and so it is shown of outlines.
-/
import Reducer.Proofs.Sharing
import Reducer.Proofs.Sweep.Basic
import Reducer.Proofs.Walk.Literal

namespace Reducer

/-- Some places. -/
abbrev Places := Path → Prop

namespace Places

/-- The places below a name, as they are seen from there. -/
def after (places : Places) (seg : Seg) : Places :=
  fun rest => places (seg :: rest)

/-- No place of the one kind lies on the way to, or at, one of the other. -/
def Apart (places others : Places) : Prop :=
  ∀ place other, places place → others other → ¬place <+: other ∧ ¬other <+: place

theorem Apart.symm {places others : Places} (h : Apart places others) : Apart others places :=
  fun place other hplace hother => (h other place hother hplace).symm

theorem Apart.after {places others : Places} (h : Apart places others) (seg : Seg) :
    Apart (places.after seg) (others.after seg) := by
  intro place other hplace hother
  have hpair := h (seg :: place) (seg :: other) hplace hother
  rwa [List.prefix_cons_inj, List.prefix_cons_inj] at hpair

/-- Where a place of the one kind is, there is none of the other, and none below. -/
theorem Apart.not_of_nil {places others : Places} (h : Apart places others) (hplace : places [])
    (other : Path) : ¬others other :=
  fun hother => (h [] other hplace hother).1 List.nil_prefix

end Places

namespace Trie

variable {α : Type}

/-- The trie leads by keys to the places, and does nothing before it gets to one. -/
inductive Towards : Places → Trie α → Prop
  /-- From a place on, anything may come. -/
  | there {places trie} (hplace : places []) : Towards places trie
  /-- Before, there are only ways to the places. -/
  | way {places branches}
      (hkeys : ∀ branch ∈ branches, ∃ name rest,
        branch.1 = .literal (.key name) ∧ places (.key name :: rest))
      (hbelow : ∀ branch ∈ branches, ∀ name, branch.1 = .literal (.key name) →
        Towards (places.after (.key name)) branch.2) :
      Towards places (.node [] branches)

/-- Branches that lead by keys to the places, and do nothing before they get to one. -/
def BranchesTowards (places : Places) (branches : List (Step × Trie α)) : Prop :=
  ∀ branch ∈ branches, ∃ name rest, branch.1 = .literal (.key name) ∧
    places (.key name :: rest) ∧ branch.2.Towards (places.after (.key name))

theorem Towards.way_of_not {places : Places} {trie : Trie α} (h : trie.Towards places)
    (hplace : ¬places []) : trie.values = [] ∧ BranchesTowards places trie.branches := by
  cases h with
  | there hthere => exact absurd hthere hplace
  | way hkeys hbelow =>
      refine ⟨rfl, fun branch hbranch => ?_⟩
      obtain ⟨name, rest, hname, hrest⟩ := hkeys branch hbranch
      exact ⟨name, rest, hname, hrest, hbelow branch hbranch name hname⟩

theorem towards_empty (places : Places) : (empty : Trie α).Towards places :=
  .way (by simp) (by simp)

/-- What is inserted at or behind a place leaves the trie leading to the places. -/
theorem towards_insert {place : Path} (hkeyed : place.Keyed) (rest : List Step) (value : α) :
    ∀ {places : Places} {trie : Trie α}, places place → trie.Towards places →
      (trie.insert (place.steps ++ rest) value).Towards places := by
  induction place with
  | nil => exact fun hplace _ => .there hplace
  | cons seg place ih =>
      intro places trie hplace htrie
      obtain ⟨⟨name, rfl⟩, hothers⟩ := List.forall_mem_cons.mp hkeyed
      cases htrie with
      | there hthere => exact .there hthere
      | @way _ branches hkeys hbelow =>
          have hgrafted : ∀ branch ∈ graft branches (.literal (.key name))
              (fun trie => insert trie (Path.steps place ++ rest) value),
              branch ∈ branches ∨ branch.1 = .literal (.key name) ∧
                branch.2.Towards (places.after (.key name)) := by
            intro branch hbranch
            rcases mem_graft hbranch with hmem | ⟨held, hmade, hkey, hheld⟩
            · exact Or.inl hmem
            · have hname : branch.1 = .literal (.key name) := Step.eq_literal_of_key hkey
              have hbefore : held.Towards (places.after (.key name)) := by
                rcases hheld with ⟨-, rfl⟩ | hmem
                · exact towards_empty _
                · exact hbelow _ hmem name hname
              rw [hmade]
              exact Or.inr ⟨hname, ih hothers hplace hbefore⟩
          refine .way (fun branch hbranch => ?_) fun branch hbranch other hother => ?_
          · rcases hgrafted branch hbranch with hmem | ⟨hname, -⟩
            · exact hkeys branch hmem
            · exact ⟨name, place, hname, hplace⟩
          · rcases hgrafted branch hbranch with hmem | ⟨hname, htowards⟩
            · exact hbelow branch hmem other hother
            · rw [hname] at hother
              cases hother
              exact htowards

/-- A trie filled at and behind the places leads to them. -/
theorem towards_insertAll {places : Places} {entries : List (List Step × α)}
    (h : ∀ entry ∈ entries, ∃ (place : Path) (rest : List Step), places place ∧ place.Keyed ∧
      entry.1 = place.steps ++ rest) :
    ∀ {trie : Trie α}, trie.Towards places → (trie.insertAll entries).Towards places := by
  induction entries with
  | nil => exact fun htrie => htrie
  | cons entry rest ih =>
      intro trie htrie
      obtain ⟨⟨place, steps, hplace, hkeyed, hsteps⟩, hrest⟩ := List.forall_mem_cons.mp h
      have hfirst := towards_insert hkeyed steps entry.2 hplace htrie
      rw [← hsteps] at hfirst
      exact ih hrest hfirst

end Trie

namespace Walker

open Build

variable {α : Type}

/-! ### What is away from the places -/

/-- Branches towards places only pass a slot that is no place, and lead on to those below it. -/
theorem quiet_of_towards {walker : Walker Build α} (hnames : walker.ByName) {places : Places}
    {branches : List (Step × Trie α)} (h : Trie.BranchesTowards places branches) {seg : Seg}
    (hseg : ¬places [seg]) (child : Node) :
    walker.Quiet branches seg child ∧
      Trie.BranchesTowards (places.after seg) (walker.below branches seg child) := by
  have hway : ∀ branch ∈ branches, walker.leads branch.1 child seg = true →
      branch.2.values = [] ∧ Trie.BranchesTowards (places.after seg) branch.2.branches := by
    intro branch hbranch hleads
    obtain ⟨name, rest, hname, -, htowards⟩ := h branch hbranch
    rw [hname, hnames, beq_iff_eq] at hleads
    subst hleads
    exact htowards.way_of_not hseg
  refine ⟨fun branch hbranch hleads => (hway branch hbranch hleads).1, fun branch hbranch => ?_⟩
  obtain ⟨parent, hparent, hmem⟩ := List.mem_flatMap.mp hbranch
  obtain ⟨hheld, hleads⟩ := List.mem_filter.mp hparent
  exact (hway parent hheld hleads).2 branch hmem

/-- No branch towards places leads to a slot that is not on the way to any. -/
theorem unmatched_of_towards {walker : Walker Build α} (hnames : walker.ByName) {places : Places}
    {branches : List (Step × Trie α)} (h : Trie.BranchesTowards places branches) {seg : Seg}
    (hseg : ∀ rest, ¬places (seg :: rest)) (child : Node) :
    walker.Unmatched branches seg child := by
  intro branch hbranch
  obtain ⟨name, rest, hname, hplace, -⟩ := h branch hbranch
  rw [hname, hnames, beq_eq_false_iff_ne]
  rintro rfl
  exact hseg rest hplace

theorem passes_of_towards {walker : Walker Build α} (hnames : walker.ByName)
    {names : List String} (hne : names ≠ []) :
    ∀ {places : Places} {branches : List (Step × Trie α)} (node : Node),
      Trie.BranchesTowards places branches →
      (∀ place, places place → ¬place <+: names.map Seg.key ∧ ¬names.map Seg.key <+: place) →
      walker.Passes branches node names := by
  induction names with
  | nil => exact absurd rfl hne
  | cons name rest ih =>
      intro places branches node h hapart
      cases rest with
      | nil =>
          intro child _
          refine unmatched_of_towards hnames h (fun rest hplace => (hapart _ hplace).2 ?_) child
          exact List.cons_prefix_cons.mpr ⟨rfl, List.nil_prefix⟩
      | cons next rest =>
          intro child _
          have hseg : ¬places [.key name] := by
            intro hplace
            exact (hapart _ hplace).1 (List.cons_prefix_cons.mpr ⟨rfl, List.nil_prefix⟩)
          obtain ⟨hquiet, hbelow⟩ := quiet_of_towards hnames h hseg child
          refine ⟨hquiet, ih (List.cons_ne_nil _ _) child hbelow fun place hplace => ?_⟩
          have hpair := hapart (.key name :: place) hplace
          rwa [List.map_cons, List.prefix_cons_inj, List.prefix_cons_inj] at hpair

/-- **A walk towards places leaves alone what is away from them.** -/
theorem at?_of_apart {walker : Walker Build α} (hnames : walker.ByName) {places : Places}
    {frame : Frame α} (h : Trie.BranchesTowards places frame.branches) {names : List String}
    (hne : names ≠ [])
    (hapart : ∀ place, places place → ¬place <+: names.map Seg.key ∧ ¬names.map Seg.key <+: place)
    {rebuilt : Node} {after : Label} (hrun : walker.rebuildFrame frame = .ok (rebuilt, after)) :
    rebuilt.at? (names.map Seg.key) = frame.node.at? (names.map Seg.key) :=
  at?_eq_of_passes hrun (passes_of_towards hnames hne frame.node h hapart)

/-- What became of fields of which none was deleted. -/
theorem forall₂_keepFields {P : String × Node → Node → Prop} {fields : List (String × Node)}
    {outcomes : List (Option Node)}
    (h : List.Forall₂ (fun field outcome => ∃ value, outcome = some value ∧ P field value)
      fields outcomes) :
    List.Forall₂ (fun field made => field.1 = made.1 ∧ P field made.2) fields
      (Node.keepFields fields outcomes) := by
  induction h with
  | nil => exact .nil
  | @cons field outcome rest outcomes hfirst _ ih =>
      obtain ⟨value, rfl, hvalue⟩ := hfirst
      exact .cons ⟨rfl, hvalue⟩ ih

/-- An object that is no place keeps its keys, and its children away from the places. -/
theorem fields_of_towards {walker : Walker Build α} (hnames : walker.ByName) {places : Places}
    {frame : Frame α} (h : Trie.BranchesTowards places frame.branches)
    (hdeep : ∀ seg, ¬places [seg]) {label : Label} {fields : List (String × Node)}
    (hnode : frame.node = .obj label fields) {rebuilt : Node} {after : Label}
    (hrun : walker.rebuildFrame frame = .ok (rebuilt, after)) :
    ∃ new made, rebuilt = .obj new made ∧
      List.Forall₂ (fun field other => field.1 = other.1 ∧
        ((∀ rest, ¬places (.key field.1 :: rest)) → other.2 = field.2)) fields made := by
  obtain ⟨outcomes, between, new, hvisits, -, rfl⟩ := rebuildFrame_ok (by rw [hnode]; rfl) hrun
  have hslots : List.Forall₂ (walker.Visited frame) frame.node.slots outcomes :=
    forall₂_visitedAt hvisits
  rw [hnode, Node.slots, List.forall₂_map_left_iff] at hslots
  have hkept : List.Forall₂ (fun field outcome => ∃ value, outcome = some value ∧
      ((∀ rest, ¬places (.key field.1 :: rest)) → value = field.2)) fields outcomes := by
    refine hslots.imp fun field outcome hvisited => ?_
    obtain ⟨hquiet, -⟩ := quiet_of_towards hnames h (hdeep (.key field.1)) field.2
    rcases Visited.of_quiet hvisited hquiet with ⟨-, rfl⟩ | ⟨deeper, inner, _, -, -, -, -, -, rfl⟩
    · exact ⟨field.2, rfl, fun _ => rfl⟩
    · refine ⟨inner, rfl, fun haway => Option.some.inj ?_⟩
      exact Visited.of_unmatched hvisited (unmatched_of_towards hnames h haway field.2)
  rw [hnode]
  exact ⟨new, Node.keepFields fields outcomes, rfl, forall₂_keepFields hkept⟩

/-! ### Two walks in either order -/

section Commuting

variable {walker one two : Walker Option α}

/-- The branches one step further down by a name. -/
def branchesUnder (branches : List (Step × Trie α)) (seg : Seg) : List (Step × Trie α) :=
  (branches.filter fun branch => branch.1 == .literal seg).flatMap (·.2.branches)

theorem branchesUnder_cons (step : Step) (trie : Trie α) (rest : List (Step × Trie α)) (seg : Seg) :
    branchesUnder ((step, trie) :: rest) seg =
      if step == .literal seg then trie.branches ++ branchesUnder rest seg
      else branchesUnder rest seg := by
  rw [branchesUnder, List.filter_cons]
  split <;> rfl

theorem towards_branchesUnder {places : Places} {branches : List (Step × Trie α)}
    (h : Trie.BranchesTowards places branches) {seg : Seg} (hseg : ¬places [seg]) :
    Trie.BranchesTowards (places.after seg) (branchesUnder branches seg) := by
  intro branch hbranch
  obtain ⟨parent, hparent, hmem⟩ := List.mem_flatMap.mp hbranch
  obtain ⟨hheld, hstep⟩ := List.mem_filter.mp hparent
  obtain ⟨name, rest, hname, -, htowards⟩ := h parent hheld
  rw [hname] at hstep
  obtain rfl : Seg.key name = seg := Sum.inl.inj (Step.beq_iff_key.mp hstep)
  exact (htowards.way_of_not hseg).2 branch hmem

/-- On the way to places a slot keeps its child, and the branches of its name are left. -/
theorem settle_of_towards (hnames : walker.ByName) {places : Places} {seg : Seg}
    (hseg : ¬places [seg]) (path : Path) (child : Node) {branches : List (Step × Trie α)}
    (h : Trie.BranchesTowards places branches) :
    walker.settle path seg branches (some child) =
      some (some child, branchesUnder branches seg) := by
  induction branches with
  | nil => rfl
  | cons branch rest ih =>
      obtain ⟨step, trie⟩ := branch
      obtain ⟨⟨name, _, hname, -, htowards⟩, hrest⟩ := List.forall_mem_cons.mp h
      obtain rfl : step = .literal (.key name) := hname
      have hstep : (Step.literal (.key name) == Step.literal seg) = (Seg.key name == seg) := rfl
      rw [settle, hnames, branchesUnder_cons, hstep]
      by_cases hsame : (Seg.key name == seg) = true
      · obtain rfl := beq_iff_eq.mp hsame
        obtain ⟨hvalues, -⟩ := htowards.way_of_not hseg
        have hvalues : trie.values = [] := hvalues
        rw [if_pos hsame, if_pos hsame, hvalues]
        show (walker.settle path (.key name) rest (some child)).bind
          (fun settled => some (settled.1, trie.branches ++ settled.2)) = _
        rw [ih hrest]
        rfl
      · rw [if_neg hsame, if_neg hsame, ih hrest]

variable {deeper down : Path → List (Step × Trie α) → Node → Option Node}

theorem visitSlot_of_towards (hnames : walker.ByName) {places : Places} {seg : Seg}
    (hseg : ¬places [seg]) (path : Path) (child : Node) {branches : List (Step × Trie α)}
    (h : Trie.BranchesTowards places branches) :
    walker.visitSlot deeper path branches seg child =
      if branchesUnder branches seg = [] then some (some child)
      else (deeper (path ++ [seg]) (branchesUnder branches seg) child).map some := by
  rw [visitSlot, settle_of_towards hnames hseg _ child h]
  show (if (branchesUnder branches seg).isEmpty then some (some child) else _) = _
  simp only [List.isEmpty_iff]
  split
  · rfl
  · exact (Option.map_eq_bind ..).symm

/-- A slot that no branch is named for stays as it is. -/
theorem visitSlot_of_no_branch (hnames : walker.ByName) {branches : List (Step × Trie α)}
    {seg : Seg} (h : ∀ branch ∈ branches, ∃ name, branch.1 = .literal name ∧ name ≠ seg)
    (path : Path) (child : Node) :
    walker.visitSlot deeper path branches seg child = some (some child) := by
  have hsettle :
      walker.settle (path ++ [seg]) seg branches (some child) = some (some child, []) := by
    induction branches with
    | nil => rfl
    | cons branch rest ih =>
        obtain ⟨step, trie⟩ := branch
        obtain ⟨⟨name, hname, hne⟩, hrest⟩ := List.forall_mem_cons.mp h
        obtain rfl : step = .literal name := hname
        rw [settle, hnames, if_neg (by simpa using hne)]
        exact ih hrest
  rw [visitSlot, hsettle]
  rfl

theorem visitSlot_of_away (hnames : walker.ByName) {places : Places} {seg : Seg}
    (hseg : ∀ rest, ¬places (seg :: rest)) {branches : List (Step × Trie α)}
    (h : Trie.BranchesTowards places branches) (path : Path) (child : Node) :
    walker.visitSlot deeper path branches seg child = some (some child) := by
  refine visitSlot_of_no_branch hnames (fun branch hbranch => ?_) path child
  obtain ⟨name, rest, hname, hplace, -⟩ := h branch hbranch
  refine ⟨.key name, hname, ?_⟩
  rintro rfl
  exact hseg rest hplace

/-- Visits what a slot still holds. -/
def thenVisit (visit : Seg → Node → Option (Option Node)) (seg : Seg) :
    Option Node → Option (Option Node)
  | none => some none
  | some value => visit seg value

/-- Two visits to a slot that end alike in either order. -/
def Swaps (visit other : Seg → Node → Option (Option Node)) (seg : Seg) : Prop :=
  ∀ value, (visit seg value).bind (thenVisit other seg) =
    (other seg value).bind (thenVisit visit seg)

theorem Swaps.symm {visit other : Seg → Node → Option (Option Node)} {seg : Seg}
    (h : Swaps visit other seg) : Swaps other visit seg :=
  fun value => (h value).symm

theorem swaps_of_stay {visit other : Seg → Node → Option (Option Node)} {seg : Seg}
    (h : ∀ value, other seg value = some (some value)) : Swaps visit other seg := by
  intro value
  have hthen : thenVisit other seg = some := by
    funext current
    cases current with
    | none => rfl
    | some value => exact h value
  rw [hthen, h, Option.bind_fun_some]
  rfl

/-- Two ways down that end alike in either order, on branches towards places apart. -/
def DeeperSwaps (deeper down : Path → List (Step × Trie α) → Node → Option Node) : Prop :=
  ∀ path {places spots : Places} {branches others : List (Step × Trie α)} (node : Node),
    Trie.BranchesTowards places branches → Trie.BranchesTowards spots others →
    places.Apart spots →
    (deeper path branches node).bind (down path others) =
      (down path others node).bind (deeper path branches)

/-- **At every slot one of the two does nothing, or both go on below.** -/
theorem swaps_visitSlot (hone : one.ByName) (htwo : two.ByName) (h : DeeperSwaps deeper down)
    (path : Path) {places spots : Places} {branches others : List (Step × Trie α)}
    (hbranches : Trie.BranchesTowards places branches)
    (hothers : Trie.BranchesTowards spots others) (hapart : places.Apart spots) (seg : Seg) :
    Swaps (one.visitSlot deeper path branches) (two.visitSlot down path others) seg := by
  by_cases hplace : places [seg]
  · -- The other walk has no business at a place of this one, or below it.
    refine swaps_of_stay (visitSlot_of_away htwo ?_ hothers path)
    exact (hapart.after seg).not_of_nil hplace
  by_cases hspot : spots [seg]
  · refine (swaps_of_stay (visitSlot_of_away hone ?_ hbranches path)).symm
    exact (hapart.symm.after seg).not_of_nil hspot
  by_cases hunder : branchesUnder others seg = []
  · refine swaps_of_stay fun value => ?_
    rw [visitSlot_of_towards htwo hspot path value hothers, if_pos hunder]
  by_cases hbelow : branchesUnder branches seg = []
  · refine (swaps_of_stay fun value => ?_).symm
    rw [visitSlot_of_towards hone hplace path value hbranches, if_pos hbelow]
  intro value
  have hfirst : ∀ value, one.visitSlot deeper path branches seg value =
      (deeper (path ++ [seg]) (branchesUnder branches seg) value).map some := by
    intro value
    rw [visitSlot_of_towards hone hplace path value hbranches, if_neg hbelow]
  have hsecond : ∀ value, two.visitSlot down path others seg value =
      (down (path ++ [seg]) (branchesUnder others seg) value).map some := by
    intro value
    rw [visitSlot_of_towards htwo hspot path value hothers, if_neg hunder]
  have hswap := h (path ++ [seg]) value (towards_branchesUnder hbranches hplace)
    (towards_branchesUnder hothers hspot) (hapart.after seg)
  have hthen : thenVisit (two.visitSlot down path others) seg ∘ some =
      Option.map some ∘ down (path ++ [seg]) (branchesUnder others seg) := funext hsecond
  have hthen' : thenVisit (one.visitSlot deeper path branches) seg ∘ some =
      Option.map some ∘ deeper (path ++ [seg]) (branchesUnder branches seg) := funext hfirst
  rw [hfirst, hsecond, Option.bind_map, Option.bind_map, hthen, hthen', ← Option.map_bind,
    ← Option.map_bind, hswap]

/-- Fields visited twice: the first of them twice, and then the rest. -/
theorem visitFields_twice (visit other : Seg → Node → Option (Option Node)) (name : String)
    (value : Node) (rest : List (String × Node)) :
    (visitFields visit ((name, value) :: rest)).bind (visitFields other) =
      ((visit (.key name) value).bind (thenVisit other (.key name))).bind fun outcome =>
        ((visitFields visit rest).bind (visitFields other)).map fun others =>
          match outcome with
          | some value => (name, value) :: others
          | none => others := by
  rw [visitFields_cons]
  cases visit (.key name) value with
  | none => rfl
  | some outcome =>
      rw [Option.bind_some, Option.bind_some]
      cases visitFields visit rest with
      | none => cases thenVisit other (.key name) outcome <;> rfl
      | some others =>
          rw [Option.map_some, Option.bind_some, Option.bind_some]
          cases outcome with
          | none =>
              show visitFields other others = (visitFields other others).map id
              rw [Option.map_id, id]
          | some kept => exact visitFields_cons other name kept others

theorem visitFields_comm {visit other : Seg → Node → Option (Option Node)}
    (h : ∀ name, Swaps visit other (.key name)) (fields : List (String × Node)) :
    (visitFields visit fields).bind (visitFields other) =
      (visitFields other fields).bind (visitFields visit) := by
  induction fields with
  | nil => rfl
  | cons field rest ih =>
      obtain ⟨name, value⟩ := field
      rw [visitFields_twice, visitFields_twice, h name value, ih]

theorem rebuildSlots_obj {new : Label} (hlabel : walker.label = some new)
    (visit : Seg → Node → Option (Option Node)) (label : Label) (fields : List (String × Node)) :
    walker.rebuildSlots visit (.obj label fields) =
      (visitFields visit fields).map (.obj new) := by
  rw [rebuildSlots, hlabel]
  cases visitFields visit fields <;> rfl

/-- An array none of whose slots is visited only loses its nulls. -/
theorem rebuildSlots_arr {new : Label} (hlabel : walker.label = some new)
    {visit : Seg → Node → Option (Option Node)}
    (h : ∀ position item, visit (.index position) item = some (some item)) (label : Label)
    (items : List Node) :
    walker.rebuildSlots visit (.arr label items) = some (.arr new (compact (items.map some))) := by
  rw [rebuildSlots, hlabel, visitItems_eq_pure h]
  rfl

/-- **Walks towards places apart can be done in either order.** -/
theorem rebuild_comm (hone : one.ByName) (htwo : two.ByName) {new : Label}
    (hlabel : one.label = some new) (hother : two.label = some new) (levels : Nat) :
    ∀ count, DeeperSwaps (one.rebuild levels) (two.rebuild count) := by
  induction levels with
  | zero =>
      intro count path places spots branches others node _ _ _
      exact (Option.bind_fun_some _).symm
  | succ levels ih =>
      intro count path places spots branches others node hbranches hothers hapart
      cases count with
      | zero => exact Option.bind_fun_some _
      | succ count =>
          have hswaps := swaps_visitSlot hone htwo (ih count) path hbranches hothers hapart
          have hitems : ∀ {walker : Walker Option α} {deeper} {places : Places} {branches},
              walker.ByName → Trie.BranchesTowards places branches → ∀ position item,
              walker.visitSlot deeper path branches (.index position) item = some (some item) := by
            intro walker deeper places branches hnames h position item
            refine visitSlot_of_no_branch hnames (fun branch hbranch => ?_) path item
            obtain ⟨name, _, hname, -⟩ := h branch hbranch
            exact ⟨.key name, hname, by simp⟩
          show (one.rebuildSlots _ node).bind (two.rebuildSlots _) =
            (two.rebuildSlots _ node).bind (one.rebuildSlots _)
          cases node with
          | obj label fields =>
              have htwice : ∀ {one two : Walker Option α} {visit other},
                  one.label = some new → two.label = some new →
                  (one.rebuildSlots visit (.obj label fields)).bind (two.rebuildSlots other) =
                    ((visitFields visit fields).bind (visitFields other)).map (.obj new) := by
                intro one two visit other hlabel hother
                rw [rebuildSlots_obj hlabel, Option.bind_map, Option.map_bind]
                exact congrArg _ (funext fun made => rebuildSlots_obj hother other new made)
              rw [htwice hlabel hother, htwice hother hlabel, visitFields_comm fun name => hswaps _]
          | arr label items =>
              rw [rebuildSlots_arr hlabel (hitems hone hbranches),
                rebuildSlots_arr hother (hitems htwo hothers), Option.bind_some, Option.bind_some,
                rebuildSlots_arr hlabel (hitems hone hbranches),
                rebuildSlots_arr hother (hitems htwo hothers)]
          | _ => rfl

end Commuting

end Walker

end Reducer
