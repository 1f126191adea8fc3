/-
A sweep and its labels.

`actOn` runs the effects of a slot on labels of its own, just above those of the
value, and forgets which labels come next.  So it is one way of changing a slot, the
same wherever and whenever it is asked, and tours and sweeps of it are as in `Tour`.

A sweep as it is run takes the labels that are next.  Its tree and the tree of the
sweep of `actOn` have one content throughout, though no more than that: containers on
the way to a slice are left in place by both.  But at every slice still to come the
two trees hold alike values, because a slice is visited before its extensions and what
is away from it is not touched; and alike values are all that the effects there see.
-/
import Reducer.Proofs.Sweep.Tour

namespace Reducer

open Build

/-! ### The effects of a slot -/

namespace Node

/-- A label newer than those of the node, and not below `fixed`. -/
def supply (fixed : Label) (node : Node) : Label :=
  node.labels.foldr (fun label next => max (label + 1) next) fixed

theorem le_supply (fixed : Label) (node : Node) : fixed ≤ node.supply fixed := by
  unfold supply
  induction node.labels with
  | nil => exact Nat.le_refl _
  | cons label rest ih => exact Nat.le_trans ih (Nat.le_max_right _ _)

theorem before_supply (fixed : Label) (node : Node) : node.Before (node.supply fixed) := by
  unfold supply Before
  induction node.labels with
  | nil => simp
  | cons label rest ih =>
      refine List.forall_mem_cons.mpr ⟨Nat.le_max_left _ _, fun other hother => ?_⟩
      exact Nat.lt_of_lt_of_le (ih other hother) (Nat.le_max_right _ _)

/-- Like the value it stands for, and older than the next label. -/
def Ready (fixed next : Label) (value made : Node) : Prop :=
  value.Like fixed made ∧ made.Before next

theorem Ready.at? {fixed next : Label} {value made : Node} (h : Ready fixed next value made)
    (path : Path) : Option.Rel (Ready fixed next) (value.at? path) (made.at? path) := by
  obtain ⟨⟨R, hR, halike⟩, hbefore⟩ := h
  have hinner : Option.Rel (Alike R) (value.at? path) (made.at? path) := halike.at?
  refine rel_mono hinner fun _ hfound hlike => ?_
  exact ⟨⟨R, hR, hlike⟩, (inherited_before next).at? hbefore hfound⟩

theorem Ready.mono {fixed next later : Label} {value made : Node}
    (h : Ready fixed next value made) (hle : next ≤ later) : Ready fixed later value made :=
  ⟨h.1, h.2.mono hle⟩

theorem Ready.toJson_eq {fixed next : Label} {value made : Node}
    (h : Ready fixed next value made) : value.toJson = made.toJson := by
  obtain ⟨⟨R, -, halike⟩, -⟩ := h
  exact halike.toJson_eq

end Node

namespace Pass

variable (pass : Pass) {fixed : Label} {effects : Path → List Effect}

/-- What the effects of a slot make of its value. -/
def actOn (fixed : Label) (effects : Path → List Effect) (path : Path) (value : Node) :
    Option (Option Node) :=
  (result (Effect.runAll (effects path) pass.action pass.view path (some value))
    (value.supply fixed)).map (·.1)

/-- The view has distinct keys and was there first, and every effect is lawful. -/
structure Sound (pass : Pass) (fixed : Label) (effects : Path → List Effect) : Prop where
  before : pass.view.Before fixed
  distinct : pass.view.Distinct
  lawful : ∀ path, ∀ effect ∈ effects path, effect.Lawful fixed

variable {pass}

theorem actOn_of_nil {path : Path} (h : effects path = []) :
    pass.actOn fixed effects path = stay := by
  funext value
  rw [actOn, h]
  rfl

theorem keepsDistinct_actOn (hsound : pass.Sound fixed effects) :
    KeepsDistinct (pass.actOn fixed effects) := by
  intro path value outcome hvalue h
  rw [actOn, Option.map_eq_some_iff] at h
  obtain ⟨⟨made, after⟩, hrun, rfl⟩ := h
  refine Effect.distinct_runAll (hsound.lawful path) hsound.distinct ?_ (result_eq_some.mp hrun)
  intro found hfound
  cases hfound
  exact hvalue

/-- **Run on whatever labels are next, the effects of a slot do what they do on their own.** -/
theorem rel_actOn (hsound : pass.Sound fixed effects) (path : Path) {value made : Node}
    {next : Label} (h : Node.Ready fixed next value made) (hnext : fixed ≤ next) :
    Option.Rel (fun outcome run => Option.Rel (Node.Ready fixed run.2) outcome run.1)
      (pass.actOn fixed effects path value)
      (result (Effect.runAll (effects path) pass.action pass.view path (some made)) next) := by
  obtain ⟨R, hR, halike⟩ :=
    h.1.pairing (value.before_supply fixed) h.2 (value.le_supply fixed) hnext
  have hview : pass.view.Alike R pass.view :=
    Node.alike_self fun label hlabel => hR.fixes label (hsound.before label hlabel)
  have hruns := Effect.rel_runAll (hsound.lawful path) pass.action path hR hview (.some halike)
  unfold actOn
  generalize result _ (value.supply fixed) = one at hruns ⊢
  generalize result _ next = other at hruns ⊢
  cases hruns with
  | none => exact .none
  | some hsame =>
      obtain ⟨S, hS, -, houtcome⟩ := hsame
      exact .some (rel_mono houtcome fun _ _ h => ⟨⟨S, hS.toMatches, h⟩, (h.before hS.bound).2⟩)

/-! ### Sweeps -/

/-- The trees of two sweeps: one content, and alike at all slices still to come. -/
structure Swept (fixed next : Label) (order : List Path) (tree made : Node) : Prop where
  content : tree.toJson = made.toJson
  ready : ∀ slice ∈ order, Option.Rel (Node.Ready fixed next) (tree.at? slice) (made.at? slice)

/-- A slice that is visited leaves the later ones alike. -/
theorem swept_replace {next later : Label} {slice : Path} {order : List Path}
    {tree made value found : Node} {outcome other : Option Node} (hslice : slice ≠ [])
    (hkeyed : slice.Keyed) (horder : ∀ after ∈ order, ¬after <+: slice)
    (h : Swept fixed next (slice :: order) tree made) (hle : next ≤ later)
    (hvalue : tree.at? slice = some value) (hfound : made.at? slice = some found)
    (houtcome : Option.Rel (Node.Ready fixed later) outcome other) :
    Swept fixed later order ((Node.replace outcome slice tree).getD tree)
      ((Node.replace other slice made).getD made) := by
  obtain ⟨one, hone⟩ := Node.exists_replace hslice outcome tree
  obtain ⟨two, htwo⟩ := Node.exists_replace hslice other made
  rw [hone, htwo, Option.getD_some, Option.getD_some]
  constructor
  · have hcontent : outcome.map Node.toJson = other.map Node.toJson := by
      cases houtcome with
      | none => rfl
      | some hready => exact congrArg some hready.toJson_eq
    have hreplaced := Node.toJson_replace hcontent hkeyed h.content hvalue hfound
    rw [hone, htwo] at hreplaced
    exact Option.some.inj hreplaced
  · intro after hafter
    by_cases hbelow : slice <+: after
    · obtain ⟨rest, rfl⟩ := hbelow
      have hleft := Node.at?_replace_append outcome rest hkeyed hvalue
      have hright := Node.at?_replace_append other rest hkeyed hfound
      rw [hone, Option.bind_some] at hleft
      rw [htwo, Option.bind_some] at hright
      rw [hleft, hright]
      exact rel_bind houtcome fun _ _ hready => hready.at? rest
    · have habove : ¬after <+: slice := horder after hafter
      have hleft := Node.at?_replace_of_not_prefix outcome hkeyed hvalue hbelow habove
      have hright := Node.at?_replace_of_not_prefix other hkeyed hfound hbelow habove
      rw [hone, Option.bind_some] at hleft
      rw [htwo, Option.bind_some] at hright
      rw [hleft, hright]
      exact rel_mono (h.ready after (List.mem_cons_of_mem _ hafter)) fun _ _ hready => hready.mono hle

/-- **A sweep ends in the content that the sweep of its slots' effects ends in.** -/
theorem rel_sweep {named : List (Path × Effect)} (hsound : pass.Sound fixed (effectsAt named))
    {order : List Path} :
    ∀ {tree made : Node} {next : Label}, order.Pairwise (fun a b => ¬b <+: a) →
      (∀ slice ∈ order, slice ≠ [] ∧ slice.Keyed) → fixed ≤ next →
      Swept fixed next order tree made →
      Option.Rel (fun one run => one.toJson = run.1.toJson)
        (order.foldlM (change (pass.actOn fixed (effectsAt named))) tree)
        (result (order.foldlM (pass.visit named) made) next) := by
  induction order with
  | nil => intro tree made next _ _ _ h; exact .some h.content
  | cons slice rest ih =>
      intro tree made next horder hslices hnext h
      obtain ⟨hfirst, hrest⟩ := List.pairwise_cons.mp horder
      obtain ⟨⟨hslice, hkeyed⟩, hothers⟩ := List.forall_mem_cons.mp hslices
      have hlater : ∀ {one two later}, Swept fixed later rest one two → fixed ≤ later →
          Option.Rel (fun one run => one.toJson = run.1.toJson)
            (rest.foldlM (change (pass.actOn fixed (effectsAt named))) one)
            (result (rest.foldlM (pass.visit named) two) later) :=
        fun hswept hle => ih hrest hothers hle hswept
      have hhere := h.ready slice List.mem_cons_self
      rw [List.foldlM_cons, List.foldlM_cons, result_bind, change, visit]
      cases hvalue : tree.at? slice with
      | none =>
          rw [hvalue] at hhere
          cases hfound : made.at? slice with
          | some found => rw [hfound] at hhere; cases hhere
          | none =>
              refine hlater ⟨h.content, fun other hother => ?_⟩ hnext
              exact h.ready other (List.mem_cons_of_mem _ hother)
      | some value =>
          rw [hvalue] at hhere
          cases hfound : made.at? slice with
          | none => rw [hfound] at hhere; cases hhere
          | some found =>
              rw [hfound] at hhere
              obtain ⟨hready⟩ := hhere
              have hact := rel_actOn hsound slice hready hnext
              dsimp only
              rw [result_bind, Option.bind_assoc]
              show Option.Rel _ ((Option.map _ _).bind _) _
              rw [Option.bind_map]
              refine rel_bind hact fun {outcome run} _ hrun hrel => ?_
              have hle := Effect.rises_runAll _ _ _ _ _ _ _ _ (result_eq_some.mp hrun)
              exact hlater (swept_replace hslice hkeyed hfirst h hle hvalue hfound hrel)
                (Nat.le_trans hnext hle)

end Pass

end Reducer
