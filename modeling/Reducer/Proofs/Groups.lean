/-
Groups that keep out of each other's way.

Two groups can be instances of one part of a state: their redirects send the same
properties to different places, and their reactions begin every slice with one of these
properties.  Then neither group sees what the other does.  All that a reaction of the one
changes lies at or behind its own places; the containers on the way there are rebuilt, but
with the same keys, and the root keeps its properties, so the view of the other group shows
the very same nodes as before.

And so the order in which two such actions are dispatched does not matter.  Each is
followed by the outline of its walk, in which nothing is left of the state it is dispatched
to: it sees a view, and the view is the same in either order.  What remains is that the two
outlines can be made in either order, which is `rebuild_comm`.
-/
import Reducer.Proofs.Outline
import Reducer.Proofs.Scopes
import Reducer.Proofs.Walk.Apart

namespace Reducer

open Build

/-! ### Redirects by keys -/

/-- The path of some keys. -/
theorem filterMap_seg?_key (names : List String) :
    (names.map Part.key).filterMap Part.seg? = names.map Seg.key := by
  rw [List.filterMap_map]
  exact congrFun List.filterMap_eq_map names

theorem Slice.eq_of_ident {slice : Slice} :
    ∀ {names : List String}, slice.map Part.ident = (names.map Part.key).map Part.ident →
      slice = names.map Part.key := by
  induction slice with
  | nil =>
      intro names h
      cases names with
      | nil => rfl
      | cons name rest => cases h
  | cons part rest ih =>
      intro names h
      cases names with
      | nil => cases h
      | cons name others =>
          obtain ⟨hpart, hrest⟩ := List.cons.inj h
          have hkey : part = .key name := by
            cases part <;> cases hpart
            rfl
          rw [hkey, ih hrest]
          rfl

theorem Slice.resolveFrom_keys (action : Action) (root : Node) {names : List String} :
    ∀ node : Node, resolveFrom action root node (names.map Part.key) =
      node.at? (names.map Seg.key) := by
  induction names with
  | nil => intro node; rfl
  | cons name rest ih => exact fun node => congrArg _ (funext ih)

namespace Redirects

/-- The places that properties are sent to. -/
def places (redirects : Redirects) : Places :=
  fun place => ∃ entry ∈ redirects, place = entry.2.filterMap Part.seg?

/-- Every property is sent by keys alone, to somewhere below a property that is sent away itself. -/
def Inward (redirects : Redirects) : Prop :=
  ∀ entry ∈ redirects, ∃ first second rest, first ∈ Table.keys redirects ∧
    entry.2 = (first :: second :: rest).map Part.key

variable {redirects held : Redirects}

theorem Inward.place (h : redirects.Inward) {place : Path} (hplace : redirects.places place) :
    ∃ first second rest, first ∈ Table.keys redirects ∧
      place = (first :: second :: rest).map Seg.key := by
  obtain ⟨entry, hentry, rfl⟩ := hplace
  obtain ⟨first, second, rest, hfirst, hslice⟩ := h entry hentry
  exact ⟨first, second, rest, hfirst, by rw [hslice, filterMap_seg?_key]⟩

theorem Inward.keyed (h : redirects.Inward) {place : Path} (hplace : redirects.places place) :
    place.Keyed := by
  obtain ⟨first, second, rest, -, rfl⟩ := h.place hplace
  intro seg hseg
  obtain ⟨name, -, rfl⟩ := List.mem_map.mp hseg
  exact ⟨name, rfl⟩

/-- No place is the root or a property of it. -/
theorem Inward.deep (h : redirects.Inward) :
    ¬redirects.places [] ∧ ∀ seg, ¬redirects.places [seg] := by
  refine ⟨fun hplace => ?_, fun seg hplace => ?_⟩
  · obtain ⟨_, _, _, -, heq⟩ := h.place hplace
    cases heq
  · obtain ⟨_, _, _, -, heq⟩ := h.place hplace
    cases heq

/-- What a property is sent to is a place. -/
theorem Inward.places_of_get? (h : redirects.Inward) {name : String} {slice : Slice}
    (hslice : Table.get? redirects name = some slice) :
    ∃ names, names ≠ [] ∧ slice = names.map Part.key ∧ redirects.places (names.map Seg.key) := by
  have hentry := Table.mem_of_get? hslice
  obtain ⟨first, second, rest, -, hkeys⟩ := h _ hentry
  refine ⟨first :: second :: rest, List.cons_ne_nil _ _, hkeys, (name, slice), hentry, ?_⟩
  rw [hkeys, filterMap_seg?_key]

/-- Redirects by keys are known from redirects that agree with them. -/
theorem Inward.get?_of_agree (h : redirects.Inward) {kept : Option Redirects}
    (hagree : Agree kept (some redirects)) :
    ∃ held, kept = some held ∧ ∀ name, Table.get? held name = Table.get? redirects name := by
  cases kept with
  | none => cases hagree
  | some held =>
      refine ⟨held, rfl, fun name => ?_⟩
      have hname := congrFun (Option.some.inj hagree) name
      unfold target? at hname
      cases hslice : Table.get? redirects name with
      | none =>
          rw [hslice] at hname
          exact Option.map_eq_none_iff.mp hname
      | some slice =>
          obtain ⟨names, -, rfl, -⟩ := h.places_of_get? hslice
          rw [hslice] at hname
          obtain ⟨found, hfound, hsame⟩ := Option.map_eq_some_iff.mp hname
          rw [hfound, Slice.eq_of_ident hsame]

theorem view_congr (h : ∀ name, Table.get? held name = Table.get? redirects name)
    (action : Action) (root : Node) :
    view (some held) action root = view (some redirects) action root := by
  cases root with
  | obj label fields =>
      unfold view shown
      simp only [h]
  | _ => rfl

end Redirects

theorem Slice.steps_congr {held redirects : Redirects}
    (h : ∀ name, Table.get? held name = Table.get? redirects name) (slice : Slice) :
    slice.steps (some held) = slice.steps (some redirects) := by
  cases slice with
  | nil => rfl
  | cons part rest =>
      cases part with
      | key name => simp only [Slice.steps, h]
      | _ => rfl

/-- The step is a name, or a predicate that sees the view. -/
def Step.SeesView : Step → Prop
  | literal _ => True
  | predicate _ unmapped => unmapped = false

namespace Registry

/-! ### The actions of a group -/

/-- The action is one of a group with these redirects, and keeps to the properties they send. -/
structure Serves (commands : List Command) (group : String) (redirects : Redirects)
    (action : Action) : Prop where
  /-- The group is there, with the redirects. -/
  scope : ∃ scope, (after commands).scope (some group) = .ok scope ∧
    scope.redirects = some redirects
  /-- The action's type is that of a reaction of the group. -/
  member : ∃ name, ((after commands).groupCreator? group name).isSome = true ∧
    action.type = qualify (some group) name
  /-- Whatever follows, every slice begins with a property that is sent elsewhere. -/
  slices : ∀ slice ∈ slices commands action.type, ∃ name rest, slice = .key name :: rest ∧
    name ∈ Table.keys redirects
  /-- The redirects lead inward. -/
  inward : redirects.Inward

namespace Serves

variable {commands : List Command} {group : String} {redirects : Redirects} {action : Action}
  (h : Serves commands group redirects action)
  (hcommands : ∀ command ∈ commands, command.Distinct)
include h hcommands

/-- All that is kept or was accepted for the action has the redirects of its group. -/
theorem agree :
    Redirects.Agree ((after commands).redirects? action.type) (some redirects) ∧
      ∀ reaction ∈ registered commands, reaction.type = action.type →
        Redirects.Agree reaction.redirects (some redirects) := by
  obtain ⟨scope, hscope, hredirects⟩ := h.scope
  obtain ⟨name, hmember, htype⟩ := h.member
  rw [htype, ← hredirects]
  exact agree_of_member hcommands hscope hmember

theorem view_eq (state : Node) :
    Redirects.view ((after commands).redirects? action.type) action state =
      Redirects.view (some redirects) action state := by
  obtain ⟨held, hheld, hsame⟩ := h.inward.get?_of_agree (h.agree hcommands).1
  rw [hheld]
  exact Redirects.view_congr hsame action state

/-- Every effect of the action lies at or behind a place, and the steps from there see the view. -/
theorem steps_of_accepted {entry : Placed} (hentry : entry ∈ accepted commands action.type) :
    ∃ (place : Path) (rest : Slice), redirects.places place ∧ place.Keyed ∧
      entry.1 = place.steps ++ rest.map (Step.ofPart false) := by
  rw [accepted_eq] at hentry
  obtain ⟨reaction, hreaction, hplaced⟩ := List.mem_flatMap.mp hentry
  unfold Registered.placed at hplaced
  split at hplaced
  · rename_i htype
    obtain ⟨declared, hdeclared, hplace⟩ := List.mem_filterMap.mp hplaced
    obtain ⟨effect, -, rfl⟩ := Option.map_eq_some_iff.mp hplace
    have hslice : declared.slice ∈ Registry.slices commands action.type :=
      List.mem_flatMap.mpr ⟨reaction, List.mem_filter.mpr ⟨hreaction, by simpa using htype⟩,
        List.mem_map.mpr ⟨declared, hdeclared, rfl⟩⟩
    obtain ⟨name, rest, hkey, hname⟩ := h.slices _ hslice
    obtain ⟨held, hheld, hsame⟩ :=
      h.inward.get?_of_agree ((h.agree hcommands).2 reaction hreaction htype)
    obtain ⟨target, htarget⟩ := Table.exists_of_mem_keys hname
    obtain ⟨names, -, rfl, hplace⟩ := h.inward.places_of_get? htarget
    refine ⟨names.map Seg.key, rest, hplace, h.inward.keyed hplace, ?_⟩
    have hmade : (names.map Part.key).map (Step.ofPart true) = Path.steps (names.map Seg.key) := by
      rw [Path.steps, List.map_map, List.map_map]
      rfl
    dsimp only
    rw [hheld, Slice.steps_congr hsame, hkey, Slice.steps, htarget]
    exact congrArg (· ++ rest.map (Step.ofPart false)) hmade
  · cases hplaced

theorem trie {trie : Trie Effect}
    (htrie : (after commands).trie? action.type = some trie) :
    Trie.BranchesTowards redirects.places trie.branches ∧
      trie.Every Step.SeesView fun _ => True := by
  rw [trie?_after] at htrie
  unfold merged at htrie
  split at htrie
  · cases htrie
  · obtain rfl := Option.some.inj htrie
    constructor
    · refine ((Trie.towards_insertAll (fun entry hentry => ?_)
        (Trie.towards_empty redirects.places)).way_of_not h.inward.deep.1).2
      obtain ⟨place, rest, hplace, hkeyed, hsteps⟩ := h.steps_of_accepted hcommands hentry
      exact ⟨place, rest.map (Step.ofPart false), hplace, hkeyed, hsteps⟩
    · refine Trie.every_insertAll (fun entry hentry => ⟨fun step hstep => ?_, trivial⟩)
        Trie.every_empty
      obtain ⟨place, rest, -, -, hsteps⟩ := h.steps_of_accepted hcommands hentry
      rw [hsteps] at hstep
      rcases List.mem_append.mp hstep with hstep | hstep
      · obtain ⟨seg, -, rfl⟩ := List.mem_map.mp hstep
        trivial
      · obtain ⟨part, -, rfl⟩ := List.mem_map.mp hstep
        cases part <;> trivial

/-! ### What the other group sees -/

variable {other : Redirects} {state next : Node} {label after : Label}

/-- **What is away from the places of a group is left alone by its actions.** -/
theorem at?_reduce
    (hrun : ((Registry.after commands).reduce state action).run label = .ok (next, after))
    {names : List String} (hne : names ≠ [])
    (hapart : ∀ place, redirects.places place →
      ¬place <+: names.map Seg.key ∧ ¬names.map Seg.key <+: place) :
    next.at? (names.map Seg.key) = state.at? (names.map Seg.key) := by
  rcases reduce_ok hrun with ⟨-, rfl⟩ | ⟨pass, start, hstart, hrebuild⟩
  · rfl
  · cases hstart with
    | mk htrie hview =>
        exact Walker.at?_of_apart (fun _ _ _ => rfl) (h.trie hcommands htrie).1 hne hapart hrebuild

/-- The root keeps its properties, and those that nothing of the group is sent below stay. -/
theorem fields_reduce {root : Label} {fields : List (String × Node)}
    (hrun : ((Registry.after commands).reduce (.obj root fields) action).run label =
      .ok (next, after)) :
    ∃ new made, next = .obj new made ∧ List.Forall₂ (fun field other => field.1 = other.1 ∧
      (field.1 ∉ Table.keys redirects → other.2 = field.2)) fields made := by
  rcases reduce_ok hrun with ⟨-, rfl⟩ | ⟨pass, start, hstart, hrebuild⟩
  · exact ⟨root, fields, rfl, List.forall₂_same.mpr fun _ _ => ⟨rfl, fun _ => rfl⟩⟩
  · cases hstart with
    | mk htrie hview =>
        obtain ⟨new, made, hnext, hfields⟩ := Walker.fields_of_towards (fun _ _ _ => rfl)
          (h.trie hcommands htrie).1 h.inward.deep.2 rfl hrebuild
        refine ⟨new, made, hnext, hfields.imp fun field other hpair => ⟨hpair.1, fun haway => ?_⟩⟩
        refine hpair.2 fun rest hplace => haway ?_
        obtain ⟨first, second, others, hfirst, heq⟩ := h.inward.place hplace
        cases heq
        exact hfirst

/-- **A view through redirects apart from those of a group shows what it showed before.** -/
theorem view_reduce (hother : other.Inward)
    (hkeys : ∀ name, name ∈ Table.keys redirects ↔ name ∈ Table.keys other)
    (hapart : redirects.places.Apart other.places) {root : Label} {fields : List (String × Node)}
    (hrun : ((Registry.after commands).reduce (.obj root fields) action).run label =
      .ok (next, after)) (reader : Action) :
    Redirects.view (some other) reader next =
      Redirects.view (some other) reader (.obj root fields) := by
  obtain ⟨new, made, rfl, hfields⟩ := h.fields_reduce hcommands hrun
  refine congrArg Build.obj (Eq.symm ?_)
  rw [← List.forall₂_eq_eq_eq, List.forall₂_map_left_iff, List.forall₂_map_right_iff]
  refine hfields.imp fun field made hpair => ?_
  rw [hpair.1]
  refine congrArg (Prod.mk _) ?_
  unfold Redirects.shown
  split
  · rename_i slice hslice
    obtain ⟨names, hne, rfl, hplace⟩ := hother.places_of_get? hslice
    rw [Slice.resolve, Slice.resolve, Slice.resolveFrom_keys, Slice.resolveFrom_keys,
      h.at?_reduce hcommands hrun hne fun place hours => hapart place _ hours hplace]
  · rename_i hslice
    refine (hpair.2 fun hmem => ?_).symm
    rw [hpair.1, hkeys] at hmem
    exact (Table.get?_eq_none_iff other made.1).mp hslice hmem

end Serves

/-! ### Either order -/

/-- What an action makes of the content of a state: the outline of its walk, if there is one. -/
def sketch (registry : Registry) (pass : Pass) (state : Node) : Option Node :=
  match registry.trie? pass.action.type with
  | none => some state
  | some trie => pass.outline.walk trie state

/-- The effects of an action type read contents, and so do the predicates that lead to them. -/
def ReadsFor (registry : Registry) (type : String) : Prop :=
  ∀ trie, registry.trie? type = some trie → trie.ReadsContent

section Commuting

variable {commands : List Command} {group rival : String} {ours theirs : Redirects}
  {one two : Action} {state made : Node}

/-- An action of a group is compared with its sketch, in whatever state it sees the same view. -/
theorem Serves.rel_sketch (h : Serves commands group ours one)
    (hcommands : ∀ command ∈ commands, command.Distinct)
    (hreads : (after commands).ReadsFor one.type) (root : Node) {shown : Table Node}
    (hview : Redirects.view (some ours) one made = Build.obj shown) (hstate : state.Akin made)
    (label : Label) :
    Option.Rel (fun sketched run => sketched.Akin run.1)
      ((after commands).sketch ⟨one, root, .obj 0 shown⟩ state)
      (result ((after commands).reduce made one) label) := by
  unfold sketch
  cases htrie : (after commands).trie? one.type with
  | none =>
      rw [Registry.reduce, htrie]
      exact .some hstate
  | some trie =>
      refine rel_reduce_outline htrie rfl hstate label fun view next hbuilt => ?_
      rw [h.view_eq hcommands, hview] at hbuilt
      cases hbuilt
      have hakin : (Node.obj 0 shown).Akin (.obj label shown) := Node.akin_of_toJson_eq rfl
      refine ⟨hakin, ((hreads trie htrie).and (h.trie hcommands htrie).2).mono ?_ fun _ h => h.1⟩
      rintro step ⟨hstep, hsees⟩
      have hsame : Pass.Resembles ⟨one, root, .obj 0 shown⟩ ⟨one, made, .obj label shown⟩ :=
        ⟨rfl, hakin⟩
      refine Pass.leadsAlike_of_reads hsame hstep ?_
      rintro test rfl
      cases hsees

/-- One action after another is compared with one sketch after another. -/
theorem Serves.rel_sketches (hone : Serves commands group ours one)
    (htwo : Serves commands rival theirs two)
    (hcommands : ∀ command ∈ commands, command.Distinct)
    (hreads : (after commands).ReadsFor one.type) (hreads' : (after commands).ReadsFor two.type)
    (hkeys : ∀ name, name ∈ Table.keys ours ↔ name ∈ Table.keys theirs)
    (hapart : ours.places.Apart theirs.places) {root : Label} {fields shown others : Table Node}
    (hview : Redirects.view (some ours) one (.obj root fields) = Build.obj shown)
    (hview' : Redirects.view (some theirs) two (.obj root fields) = Build.obj others)
    (tree : Node) (label : Label) :
    Option.Rel (fun sketched run => sketched.Akin run.1)
      (((after commands).sketch ⟨one, tree, .obj 0 shown⟩ (.obj root fields)).bind
        ((after commands).sketch ⟨two, tree, .obj 0 others⟩))
      (result ((after commands).reduceAll (.obj root fields) [one, two]) label) := by
  have hpair : result ((after commands).reduceAll (.obj root fields) [one, two]) label =
      (result ((after commands).reduce (.obj root fields) one) label).bind fun run =>
        result ((after commands).reduce run.1 two) run.2 := by
    simp only [reduceAll, result_bind, bind_pure]
  rw [hpair]
  have hfirst := hone.rel_sketch hcommands hreads tree hview (Node.akin_refl _) label
  refine rel_bind hfirst fun {sketched run} _ hrun hakin => ?_
  refine htwo.rel_sketch hcommands hreads' tree ?_ hakin run.2
  rw [hone.view_reduce hcommands htwo.inward hkeys hapart (result_eq_some.mp hrun), hview']

/-- Sketches of groups apart can be made in either order. -/
theorem Serves.sketch_comm (hone : Serves commands group ours one)
    (htwo : Serves commands rival theirs two)
    (hcommands : ∀ command ∈ commands, command.Distinct)
    (hapart : ours.places.Apart theirs.places) (root view root' view' state : Node) :
    ((after commands).sketch ⟨one, root, view⟩ state).bind
        ((after commands).sketch ⟨two, root', view'⟩) =
      ((after commands).sketch ⟨two, root', view'⟩ state).bind
        ((after commands).sketch ⟨one, root, view⟩) := by
  unfold sketch
  dsimp only
  cases hfirst : (after commands).trie? one.type with
  | none => exact (Option.bind_fun_some _).symm
  | some trie =>
      cases hsecond : (after commands).trie? two.type with
      | none => exact Option.bind_fun_some _
      | some rest =>
          exact Walker.rebuild_comm (fun _ _ _ => rfl) (fun _ _ _ => rfl) rfl rfl _ _ [] state
            (hone.trie hcommands hfirst).1 (htwo.trie hcommands hsecond).1 hapart

end Commuting

/-! ### Two lists -/

/-- Whether a child is null. -/
def nulls : Predicate :=
  ⟨0, fun _ _ value _ => value.isNull, none⟩

theorem readsContent_nulls : nulls.ReadsContent :=
  fun _ _ _ _ _ _ _ hvalue => (Node.akin_of_toJson_eq hvalue).isNull

/-- Two groups with one reaction each, which drops the nulls among the items of the group. -/
def twoLists : List Command :=
  ["left", "right"].map fun group =>
    .register [[("drop", .reaction ⟨some fun _ => .null,
      [⟨[.key "items", .predicate nulls], some .delete⟩]⟩)]]
      (some [("items", [.key "items", .key group])]) (some group)

/-- A state with both lists. -/
def twoItems : Node :=
  .obj 0 [("items", .obj 1 [("left", .obj 2 [("a", .null), ("b", .bool true)]),
    ("right", .obj 3 [("a", .null)])])]

theorem serves_twoLists {group : String} (h : group ∈ ["left", "right"]) :
    Serves twoLists group [("items", [.key "items", .key group])]
      ⟨qualify (some group) "drop", .null⟩ := by
  have hmade : (∃ scope, (after twoLists).scope (some group) = .ok scope ∧
        scope.redirects = some [("items", [.key "items", .key group])]) ∧
      ((after twoLists).groupCreator? group "drop").isSome = true ∧
      slices twoLists (qualify (some group) "drop") = [[.key "items", .predicate nulls]] := by
    simp only [List.mem_cons, List.not_mem_nil, or_false] at h
    rcases h with rfl | rfl <;> exact ⟨⟨_, rfl, rfl⟩, rfl, rfl⟩
  obtain ⟨hscope, hmember, hslices⟩ := hmade
  refine ⟨hscope, ⟨"drop", hmember, rfl⟩, ?_, ?_⟩
  · rw [hslices]
    intro slice hslice
    rw [List.mem_singleton.mp hslice]
    exact ⟨"items", [.predicate nulls], rfl, List.mem_singleton_self _⟩
  · intro entry hentry
    rw [List.mem_singleton.mp hentry]
    exact ⟨"items", group, [], List.mem_singleton_self _, rfl⟩

theorem readsFor_twoLists {group : String} (h : group ∈ ["left", "right"]) :
    (after twoLists).ReadsFor (qualify (some group) "drop") := by
  have hreads : Trie.ReadsContent (Trie.empty.insertAll
      [([.literal (.key "items"), .literal (.key group), .predicate nulls false], .delete)]) := by
    refine Trie.every_insertAll (fun entry hentry => ?_) Trie.every_empty
    rw [List.mem_singleton.mp hentry]
    refine ⟨fun step hstep => ?_, trivial⟩
    simp only [List.mem_cons, List.not_mem_nil, or_false] at hstep
    rcases hstep with rfl | rfl | rfl
    · trivial
    · trivial
    · exact readsContent_nulls
  simp only [List.mem_cons, List.not_mem_nil, or_false] at h
  rcases h with rfl | rfl
  all_goals
    rintro trie htrie
    cases htrie
    exact hreads

/--
**Groups apart neither see nor mind each other.**  Let two groups send the same properties
inward, to places of which none lies on the way to another, and let all slices of two of
their actions begin with such a property.  Then on any object the one action, if it
succeeds, leaves alone every place of the other group, and the other group's view shows the
same nodes as before; and where callbacks and predicates read contents, both actions
succeed in either order or in none, and what they make has the same content.
-/
theorem isolated_of_apart {commands : List Command}
    (hcommands : ∀ command ∈ commands, command.Distinct) {group rival : String}
    {ours theirs : Redirects} {one two : Action} (hone : Serves commands group ours one)
    (htwo : Serves commands rival theirs two)
    (hkeys : ∀ name, name ∈ Table.keys ours ↔ name ∈ Table.keys theirs)
    (hapart : ours.places.Apart theirs.places) (root : Label) (fields : Table Node) :
    (∀ label next ending,
      ((after commands).reduce (.obj root fields) one).run label = .ok (next, ending) →
        (∀ place, theirs.places place → next.at? place = (Node.obj root fields).at? place) ∧
        ∃ shown,
          Redirects.view ((after commands).redirects? two.type) two (.obj root fields) =
            Build.obj shown ∧
          Redirects.view ((after commands).redirects? two.type) two next = Build.obj shown) ∧
    ((after commands).ReadsFor one.type → (after commands).ReadsFor two.type →
      ∀ label other,
        (result ((after commands).reduceAll (.obj root fields) [one, two]) label).map
            (fun run => run.1.toJson) =
          (result ((after commands).reduceAll (.obj root fields) [two, one]) other).map
            fun run => run.1.toJson) := by
  have hviews : ∀ (redirects : Redirects) action, ∃ shown,
      Redirects.view (some redirects) action (.obj root fields) = Build.obj shown :=
    fun _ _ => ⟨_, rfl⟩
  obtain ⟨seen, hseen⟩ := hviews ours one
  obtain ⟨shown, hshown⟩ := hviews theirs two
  constructor
  · intro label next ending hrun
    refine ⟨fun place hplace => ?_, shown, ?_, ?_⟩
    · obtain ⟨first, second, rest, -, rfl⟩ := htwo.inward.place hplace
      exact hone.at?_reduce hcommands hrun (List.cons_ne_nil _ _)
        fun held hours => hapart held _ hours hplace
    · rw [htwo.view_eq hcommands, hshown]
    · rw [htwo.view_eq hcommands, hone.view_reduce hcommands htwo.inward hkeys hapart hrun, hshown]
  · intro hreads hreads' label other
    have hforth := hone.rel_sketches htwo hcommands hreads hreads' hkeys hapart hseen hshown .null
      label
    have hback := htwo.rel_sketches hone hcommands hreads' hreads (fun name => (hkeys name).symm)
      hapart.symm hshown hseen .null other
    rw [hone.sketch_comm htwo hcommands hapart] at hforth
    exact map_eq_of_rel (rel_of_common hforth hback fun hleft hright =>
      hleft.toJson_eq.symm.trans hright.toJson_eq)

/-- Dropping from the one of two lists leaves the other, and both may drop in either order. -/
theorem isolated_of_apart_twoLists :
    (∃ next ending, ((after twoLists).reduce twoItems ⟨qualify (some "left") "drop", .null⟩).run 4 =
        .ok (next, ending) ∧
      next.at? [.key "items", .key "right"] = some (.obj 3 [("a", .null)])) ∧
    (result ((after twoLists).reduceAll twoItems
        [⟨qualify (some "left") "drop", .null⟩, ⟨qualify (some "right") "drop", .null⟩]) 4).map
          (fun run => run.1.toJson) =
      (result ((after twoLists).reduceAll twoItems
        [⟨qualify (some "right") "drop", .null⟩, ⟨qualify (some "left") "drop", .null⟩]) 4).map
          fun run => run.1.toJson := by
  have hcommands : ∀ command ∈ twoLists, command.Distinct := by
    intro command hcommand
    obtain ⟨group, -, rfl⟩ := List.mem_map.mp hcommand
    rintro held hheld
    cases hheld
    exact List.nodup_singleton _
  have hapart : (Redirects.places [("items", [.key "items", .key "left"])]).Apart
      (Redirects.places [("items", [.key "items", .key "right"])]) := by
    rintro _ _ ⟨entry, hentry, rfl⟩ ⟨other, hother, rfl⟩
    rw [List.mem_singleton.mp hentry, List.mem_singleton.mp hother]
    decide
  have hleft : "left" ∈ ["left", "right"] := by decide
  have hright : "right" ∈ ["left", "right"] := by decide
  obtain ⟨halone, heither⟩ := isolated_of_apart hcommands (serves_twoLists hleft)
    (serves_twoLists hright) (fun _ => Iff.rfl) hapart 0 _
  have hrun : ((after twoLists).reduce twoItems ⟨qualify (some "left") "drop", .null⟩).run 4 =
      .ok (.obj 7 [("items", .obj 6 [("left", .obj 5 [("b", .bool true)]),
        ("right", .obj 3 [("a", .null)])])], 8) := rfl
  refine ⟨⟨_, _, hrun, ?_⟩, heither (readsFor_twoLists hleft) (readsFor_twoLists hright) 4 4⟩
  exact (halone _ _ _ hrun).1 _ ⟨_, List.mem_singleton_self _, rfl⟩

end Registry

end Reducer
