/-
A reduction along keys is a sweep.

Where every slice of an action type is a path of keys, the type's trie holds at each
path the effects on exactly that path, so the walk of a reduction is a tour of them; and
a tour is a sweep in any order that puts a slice before its extensions.  The two never
draw the same labels at the same time, so what they end in has the same content rather
than being the same, and they fail together, though not always with the same fault.
-/
import Reducer.Proofs.Reduction
import Reducer.Proofs.Registration
import Reducer.Proofs.Sweep.Walk
import Reducer.Proofs.View

namespace Reducer

open Build

/-- Some depth is above a given one and holds every slice. -/
theorem exists_depth (height : Nat) (order : List Path) :
    ∃ depth, height < depth ∧ ∀ slice ∈ order, slice.length ≤ depth := by
  induction order with
  | nil => exact ⟨height + 1, Nat.lt_succ_self _, by simp⟩
  | cons slice rest ih =>
      obtain ⟨depth, hheight, hdepth⟩ := ih
      refine ⟨max slice.length depth, Nat.lt_of_lt_of_le hheight (Nat.le_max_right _ _), ?_⟩
      refine List.forall_mem_cons.mpr ⟨Nat.le_max_left _ _, fun other hother => ?_⟩
      exact Nat.le_trans (hdepth other hother) (Nat.le_max_right _ _)

theorem Node.ready_self {next : Label} {node : Node} (h : node.Before next) :
    Node.Ready next next node node :=
  ⟨⟨Eq, ⟨fun _ _ => rfl, fun hb hc => hb.symm.trans hc, fun ha hb => ha.trans hb.symm⟩,
    alike_self fun _ _ => rfl⟩, h⟩

theorem effectsAt_eq_nil {named : List (Path × Effect)} {slice : Path}
    (h : ∀ entry ∈ named, entry.1 ≠ slice) : effectsAt named slice = [] := by
  rw [effectsAt, List.filter_eq_nil_iff.mpr]
  · rfl
  · intro entry hentry
    simpa using h entry hentry

/-- **The walk of a pass and its sweep end in the same content, or both fail.** -/
theorem Pass.walk_eq_sweep {pass : Pass} {named : List (Path × Effect)} {order : List Path}
    {trie : Trie Effect} {start : Label} (hsound : pass.Sound start (effectsAt named))
    (hnames : trie.Names (effectsAt named))
    (hkeyed : ∀ entry ∈ named, entry.1 ≠ [] ∧ entry.1.Keyed) (horder : Orders named order)
    (hdistinct : pass.root.Distinct) (hbefore : pass.root.Before start)
    (hnulls : pass.walker.MeetsNoNulls ⟨[], trie.branches, pass.root, start⟩) :
    (pass.walker.rebuildFrame ⟨[], trie.branches, pass.root, start⟩).toOption.map
        (fun run => run.1.toJson) =
      (result (pass.sweep named order) start).map fun run => run.1.toJson := by
  have hready : Node.Ready start start pass.root pass.root := Node.ready_self hbefore
  have hslices : ∀ slice ∈ order, slice ≠ [] ∧ slice.Keyed := by
    intro slice hslice
    obtain ⟨entry, hentry, rfl⟩ := (horder.mem_iff slice).mp hslice
    exact hkeyed entry hentry
  have hstay : ∀ path, path ∉ order → pass.actOn start (effectsAt named) path = stay := by
    intro path hpath
    refine Pass.actOn_of_nil (effectsAt_eq_nil fun entry hentry heq => hpath ?_)
    exact (horder.mem_iff path).mpr ⟨entry, hentry, heq⟩
  obtain ⟨depth, hheight, hdepth⟩ := exists_depth (Trie.branchesHeight trie.branches) order
  have hwalk : pass.Tours start (effectsAt named) depth ⟨[], trie.branches, pass.root, start⟩ :=
    Pass.tours_of_leads hsound hnames hheight ⟨trie, rfl, rfl⟩ hnulls (Nat.le_refl _)
  have htour : order.foldlM (change (pass.actOn start (effectsAt named))) pass.root =
      tour (pass.actOn start (effectsAt named)) depth [] pass.root := by
    refine foldlM_change_eq_tour hdistinct (Pass.keepsDistinct_actOn hsound) horder.pairwise ?_ hstay
    intro slice hslice
    exact ⟨(hslices slice hslice).1, (hslices slice hslice).2, hdepth slice hslice⟩
  have hsweep := Pass.rel_sweep hsound horder.pairwise hslices (Nat.le_refl _)
    ⟨rfl, fun slice _ => hready.at? slice⟩
  rw [htour] at hsweep
  exact (map_eq_of_rel (hwalk _ hready)).symm.trans (map_eq_of_rel hsweep)

namespace Registry

/--
**A reduction along keys is a sweep.**  Where every slice accepted for the action's type
is a path of keys, and no array the walk comes to has a null in it, reducing the state
and visiting the slices one after the other, each before its extensions, succeed
together, and what they end in has the same content.  That callbacks are lawful is all
that is asked of them: they may tell nodes apart, but not by the numbers of their labels.
-/
theorem reduce_eq_sweep {commands : List Command} {named : List (Path × Effect)}
    {order : List Path} {state : Node} {action : Action} {label : Label}
    (hnamed : accepted commands action.type = named.map fun entry => (entry.1.steps, entry.2))
    (hkeyed : ∀ entry ∈ named, entry.1 ≠ [] ∧ entry.1.Keyed) (horder : Orders named order)
    (hlawful : ∀ entry ∈ named, entry.2.Lawful label) (hdistinct : state.Distinct)
    (hbefore : state.Before label)
    (hnulls : ∀ pass start, (after commands).Starts state action label pass start →
      pass.walker.MeetsNoNulls start) :
    (result ((after commands).reduce state action) label).map (fun run => run.1.toJson) =
      (result ((after commands).sweep named order state action) label).map
        fun run => run.1.toJson := by
  have htries := trie?_after commands action.type
  obtain ⟨view, next, hview, hle, -⟩ :=
    Redirects.view_run ((after commands).redirects? action.type) action state label
  rw [sweep, result_bind, result_eq_some.mpr hview]
  rcases (after commands).reduce_cases state action label with ⟨hnone, hrun⟩ |
    ⟨pass, start, hstart, hrun⟩
  · rw [hnone, hnamed] at htries
    obtain rfl := List.map_eq_nil_iff.mp (eq_nil_of_merged htries.symm)
    have hempty : order = [] := by
      refine List.eq_nil_iff_forall_not_mem.mpr fun slice hslice => ?_
      obtain ⟨entry, hentry, -⟩ := (horder.mem_iff slice).mp hslice
      cases hentry
    rw [hempty, result_eq_some.mpr hrun]
    rfl
  · have hmeets := hnulls pass start hstart
    obtain ⟨htrie, hview'⟩ := hstart
    rename_i trie _ _
    rw [hview] at hview'
    cases hview'
    rw [htrie, hnamed] at htries
    obtain ⟨-, hholds⟩ := holds_of_merged htries.symm
    have hnames : trie.Names (effectsAt named) :=
      hholds.names fun entry hentry => (hkeyed entry hentry).2
    have hsound : Pass.Sound ⟨action, state, view⟩ next (effectsAt named) := by
      refine ⟨Redirects.before_view hbefore hview, Redirects.distinct_view hdistinct hview, ?_⟩
      intro path effect heffect
      obtain ⟨entry, hentry, rfl⟩ := List.mem_map.mp heffect
      exact (hlawful entry (List.mem_of_mem_filter hentry)).mono hle
    rw [result, hrun]
    exact Pass.walk_eq_sweep hsound hnames hkeyed horder hdistinct (hbefore.mono hle) hmeets

/-- A slice may be put there by the effects on a shorter one. -/
theorem reduce_eq_sweep_set :
    (result ((after [.register [[("t", .reaction ⟨some fun _ => .null,
        [⟨[.key "a"], some (.set fun _ _ _ => .obj [("x", .keep .null), ("y", .arr [])])⟩,
          ⟨[.key "a", .key "x"], some .delete⟩]⟩)]] none none]).reduce
      (.obj 0 [("a", .null), ("b", .arr 1 [])]) ⟨"t", .null⟩) 2).map (fun run => run.1.toJson) =
      some (.obj [("a", .obj [("y", .arr [])]), ("b", .arr [])]) := by
  have horder : Orders [([.key "a"], .set fun _ _ _ => .obj [("x", .keep .null), ("y", .arr [])]),
      ([.key "a", .key "x"], .delete)] [[.key "a"], [.key "a", .key "x"]] :=
    ⟨by simp [eq_comm], by decide⟩
  have hlawful : (Effect.set fun _ _ _ => .obj [("x", .keep .null), ("y", .arr [])]).Lawful 2 := by
    refine ⟨fun _ _ _ _ _ _ _ _ => ?_, fun _ _ _ _ _ => ?_⟩
    · exact ⟨⟨rfl, trivial⟩, ⟨rfl, trivial⟩, trivial⟩
    · exact ⟨by decide, trivial, trivial, trivial⟩
  refine (reduce_eq_sweep rfl ?_ horder ?_ ?_ ?_ ?_).trans rfl
  · simp [Path.Keyed]
  · exact List.forall_mem_cons.mpr ⟨hlawful, by simp [Effect.Lawful]⟩
  · simp [Node.Distinct, Node.DistinctFields, Node.DistinctItems, Table.Distinct, Table.keys]
  · show ∀ label ∈ [0, 1], label < 2
    decide
  · rintro pass start ⟨htrie, hview⟩ frame label items henters hframe
    cases htrie
    cases hview
    rcases Relation.ReflTransGen.cases_head henters with rfl | ⟨deeper, hfirst, hrest⟩
    · cases hframe
    · obtain ⟨hvisit, hsettle, hbelow⟩ := hfirst
      have hmem := hvisit.mem_slots
      simp only [Node.slots, List.map_cons, List.map_nil, List.mem_cons, List.not_mem_nil, or_false,
        Prod.mk.injEq] at hmem
      rcases hmem with ⟨rfl, rfl⟩ | ⟨rfl, rfl⟩
      · cases hsettle
        rcases Relation.ReflTransGen.cases_head hrest with rfl | ⟨last, hsecond, -⟩
        · cases hframe
        · exact absurd hsecond.one_lt_height (Nat.lt_irrefl 1)
      · cases hsettle
        exact absurd rfl hbelow

end Registry

end Reducer
