/-
Redirects in another order.

A view could be made by writing over the properties of the root, one redirect after the other.
A redirect may lead through a property that another one has written over already, but it is
followed from the root and not from what has been written so far; so each redirect settles one
property and no redirect minds another, `overwrite_eq`.  The order in which they come is not to
be seen.

It is not to be seen elsewhere either.  Redirects are looked up by property, to compile slices
and to make views, and compared by property, to let a call through.  So registries that were
reached by calls that differ in the order of redirects only hold the same creators, the same
tries, and redirects that differ in their order, `rearranges_after`; and whatever is asked of
the one is answered alike by the other.
-/
import Reducer.Proofs.Agreement
import Reducer.Proofs.Coherence
import Reducer.Proofs.Groups
import Reducer.Proofs.Recording

namespace Reducer

open Build

namespace Redirects

variable {redirects : Redirects} {action : Action} {root : Node}

/-! ### One redirect after the other -/

/-- Writes where a redirect leads over its property, if the root has the property. -/
def overwriteOne (action : Action) (root : Node) (fields : Table Node) (entry : String × Slice) :
    Table Node :=
  if Table.has fields entry.1 then
    Table.set fields entry.1 ((entry.2.resolve action root).getD .null)
  else fields

/-- Writes where the redirects lead over their properties, one redirect after the other. -/
def overwrite (action : Action) (root : Node) (redirects : Redirects) (fields : Table Node) :
    Table Node :=
  redirects.foldl (overwriteOne action root) fields

/-- Where no key occurs twice, a write at a key that is there changes the value there alone. -/
theorem set_eq_map {fields : Table Node} (hfields : Table.Distinct fields) {name : String}
    (hname : name ∈ Table.keys fields) (value : Node) :
    Table.set fields name value =
      fields.map fun field => (field.1, if name = field.1 then value else field.2) := by
  induction fields with
  | nil => cases hname
  | cons field rest ih =>
      obtain ⟨key, held⟩ := field
      obtain ⟨hfirst, hrest⟩ := List.nodup_cons.mp hfields
      rw [Table.set, List.map_cons]
      by_cases hkey : key = name
      · subst hkey
        have hkept : ∀ field ∈ rest,
            (field.1, if key = field.1 then value else field.2) = field := by
          intro field hfield
          have hne : key ≠ field.1 := by
            rintro rfl
            exact hfirst (List.mem_map.mpr ⟨field, hfield, rfl⟩)
          rw [if_neg hne]
        rw [if_pos rfl, if_pos rfl, List.map_congr_left hkept, List.map_id']
      · have hlater : name ∈ Table.keys rest := by
          rcases List.mem_cons.mp hname with heq | hlater
          · exact absurd heq.symm hkey
          · exact hlater
        rw [if_neg hkey, if_neg (Ne.symm hkey), ih hrest hlater]

theorem overwriteOne_eq {fields : Table Node} (hfields : Table.Distinct fields) (name : String)
    (slice : Slice) :
    overwriteOne action root fields (name, slice) = fields.map fun field =>
      (field.1, if name = field.1 then (slice.resolve action root).getD .null else field.2) := by
  unfold overwriteOne
  split
  · rename_i hhas
    refine set_eq_map hfields ?_ _
    by_contra hmissing
    rw [Table.has, (Table.get?_eq_none_iff fields name).mpr hmissing] at hhas
    cases hhas
  · rename_i hhas
    have hkept : ∀ field ∈ fields, (field.1, if name = field.1 then
        (slice.resolve action root).getD .null else field.2) = field := by
      intro field hfield
      have hne : name ≠ field.1 := by
        rintro rfl
        rw [Table.has, Table.get?_of_mem hfields hfield] at hhas
        exact hhas rfl
      rw [if_neg hne]
    rw [List.map_congr_left hkept, List.map_id']

/-- **Redirects that are written one after the other settle each property on its own.** -/
theorem overwrite_eq (hredirects : Table.Distinct redirects) :
    ∀ {fields : Table Node}, Table.Distinct fields →
      overwrite action root redirects fields =
        fields.map fun field => (field.1, redirects.shown action root field.1 field.2) := by
  induction redirects with
  | nil =>
      intro fields _
      exact (List.map_id' fields).symm
  | cons entry rest ih =>
      intro fields hfields
      obtain ⟨name, slice⟩ := entry
      obtain ⟨hname, hrest⟩ := List.nodup_cons.mp hredirects
      have hwritten : overwriteOne action root fields (name, slice) = _ :=
        overwriteOne_eq hfields name slice
      have hkept : Table.Distinct (overwriteOne action root fields (name, slice)) := by
        rw [hwritten, Table.Distinct, Table.keys, List.map_map]
        exact hfields
      rw [overwrite, List.foldl_cons, ← overwrite, ih hrest hkept, hwritten, List.map_map]
      refine List.map_congr_left fun field _ => ?_
      rw [Function.comp_apply, shown, shown, Table.get?_cons]
      by_cases hfield : name = field.1
      · have hmissing := (Table.get?_eq_none_iff rest field.1).mpr (hfield ▸ hname)
        rw [if_pos hfield, if_pos hfield, hmissing]
      · rw [if_neg hfield, if_neg hfield]

/-! ### What a view shows -/

/-- A view of a root, property by property. -/
structure ByProperty (redirects : Redirects) (action : Action) (root built : Node) : Prop where
  /-- A root that is no object is its own view. -/
  other : root.fields? = none → built = root
  /-- The view has the properties of the root, in their order. -/
  keys : built.fields?.map Table.keys = root.fields?.map Table.keys
  /-- A property that is not redirected shows the node that the root has. -/
  kept : ∀ name, name ∉ Table.keys redirects →
    built.child? (.key name) = root.child? (.key name)
  /-- A property that is redirected shows the node that its slice leads to in the root, or null. -/
  sent : ∀ name slice, Table.get? redirects name = some slice →
    built.child? (.key name) =
      (root.child? (.key name)).map fun _ => (slice.resolve action root).getD .null
  /-- It is what comes of writing the redirects over the root one by one, in any order. -/
  anyOrder : ∀ others, redirects.Perm others →
    built.fields? = root.fields?.map (overwrite action root others)

theorem distinct_of_perm {others : Redirects} (h : Table.Distinct redirects)
    (hperm : redirects.Perm others) : Table.Distinct others :=
  (hperm.map _).nodup_iff.mp h

theorem shown_of_none {name : String} (h : Table.get? redirects name = none) :
    redirects.shown action root name = id := by
  funext value
  simp only [shown, h, id]

theorem shown_of_some {name : String} {slice : Slice} (h : Table.get? redirects name = some slice) :
    redirects.shown action root name = fun _ => (slice.resolve action root).getD .null := by
  funext value
  simp only [shown, h]

/-- **A view is settled property by property, whatever the order of the redirects.** -/
theorem byProperty_of_view {built : Node} {label after : Label}
    (hredirects : Table.Distinct redirects) (hroot : root.Distinct)
    (h : (view (some redirects) action root).run label = .ok (built, after)) :
    redirects.ByProperty action root built := by
  cases root with
  | obj old fields =>
      cases h
      obtain ⟨hfields, -⟩ := Node.distinct_obj.mp hroot
      refine ⟨?_, ?_, fun name hname => ?_, fun name slice hslice => ?_, fun others hperm => ?_⟩
      · rintro ⟨⟩
      · rw [Node.fields?, Node.fields?, Option.map_some, Option.map_some, Table.keys, List.map_map]
        rfl
      · have hnone := (Table.get?_eq_none_iff redirects name).mpr hname
        rw [Node.child?, Table.get?_map (redirects.shown action (.obj old fields)),
          shown_of_none hnone, Option.map_id]
        rfl
      · rw [Node.child?, Table.get?_map (redirects.shown action (.obj old fields)),
          shown_of_some hslice]
        rfl
      · rw [Node.fields?, Node.fields?, Option.map_some,
          overwrite_eq (distinct_of_perm hredirects hperm) hfields]
        simp only [shown, Table.get?_of_perm hredirects hperm]
  | _ =>
      cases h
      exact ⟨fun _ => rfl, rfl, fun _ _ => rfl, fun _ _ _ => rfl, fun _ _ => rfl⟩

/-! ### The same redirects in another order -/

/-- Redirects that name no property twice, and the same in any order; or none on either side. -/
def Rearranged : Option Redirects → Option Redirects → Prop :=
  Option.Rel fun held made => Table.Distinct held ∧ held.Perm made

namespace Rearranged

variable {one two given made : Option Redirects}

theorem left_distinct (h : Rearranged one two) : ∀ held, one = some held → held.Distinct := by
  rintro held rfl
  cases h with
  | some hperm => exact hperm.1

theorem right_distinct (h : Rearranged one two) : ∀ held, two = some held → held.Distinct := by
  rintro held rfl
  cases h with
  | some hperm => exact distinct_of_perm hperm.1 hperm.2

theorem agree (h : Rearranged one two) : Agree one two := by
  cases h with
  | none => rfl
  | some hperm =>
      refine congrArg some (funext fun name => ?_)
      rw [target?, target?, Table.get?_of_perm hperm.1 hperm.2]

theorem or (h : Rearranged one two) (hgiven : Rearranged given made) :
    Rearranged (given.or one) (made.or two) := by
  cases hgiven with
  | none => exact h
  | some hperm => exact .some hperm

/-- What is compared with redirects in one order is found equal in any. -/
theorem eqvOption_eq (h : Rearranged one two) (hgiven : Rearranged given made) :
    eqvOption one given = eqvOption two made := by
  rw [Bool.eq_iff_iff, eqvOption_iff_agree h.left_distinct hgiven.left_distinct,
    eqvOption_iff_agree h.right_distinct hgiven.right_distinct]
  exact ⟨fun hagree => h.agree.symm.trans (hagree.trans hgiven.agree),
    fun hagree => h.agree.trans (hagree.trans hgiven.agree.symm)⟩

theorem view_eq (h : Rearranged one two) (action : Action) (root : Node) :
    view two action root = view one action root := by
  cases h with
  | none => rfl
  | some hperm => exact view_congr (fun name => (Table.get?_of_perm hperm.1 hperm.2 name).symm) _ _

theorem steps_eq (h : Rearranged one two) (slice : Slice) : slice.steps two = slice.steps one := by
  cases h with
  | none => rfl
  | some hperm =>
      exact Slice.steps_congr (fun name => (Table.get?_of_perm hperm.1 hperm.2 name).symm) slice

end Rearranged

end Redirects

open Redirects (Rearranged)

/-- Scopes that differ in the order of their redirects only. -/
structure Scope.Rearranges (scope other : Scope) : Prop where
  creators : other.creators = scope.creators
  thunks : other.thunks = scope.thunks
  selectors : other.selectors = scope.selectors
  redirects : Rearranged scope.redirects other.redirects

/-- What a scope shows and selects depends on contents. -/
structure Scope.ReadsContent (scope : Scope) : Prop where
  redirects : ∀ held, scope.redirects = some held → Redirects.ReadsContent held
  selectors : ∀ entry ∈ scope.selectors, ∀ view other : Node, view.toJson = other.toJson →
    (entry.2 view).toJson = (entry.2 other).toJson

namespace Registry

/-- Both are refused with one fault, or both end in related values. -/
inductive Parallel {α β : Type} (P : α → β → Prop) : Except Fault α → Except Fault β → Prop
  | error {fault} : Parallel P (.error fault) (.error fault)
  | ok {value other} (h : P value other) : Parallel P (.ok value) (.ok other)

/-- Registries that differ in the order of redirects only. -/
structure Rearranges (registry other : Registry) : Prop where
  creators : other.creators = registry.creators
  tries : other.tries = registry.tries
  redirects : ∀ type, Rearranged (registry.redirects? type) (other.redirects? type)
  scopes : ∀ group, Parallel Scope.Rearranges (registry.scope group) (other.scope group)

/-- Calls that differ in the order of redirects only. -/
inductive Command.Rearranged : Command → Command → Prop
  | register {batch redirects made group} (h : Redirects.Rearranged redirects made) :
      Rearranged (.register batch redirects group) (.register batch made group)
  | clear : Rearranged .clear .clear

variable {registry other : Registry} {redirects made : Option Redirects} {group : Option String}

/-! ### Calls into registries that differ in order only -/

theorem rearranges_empty : empty.Rearranges empty := by
  have hscope : Scope.empty.Rearranges Scope.empty := ⟨rfl, rfl, rfl, .none⟩
  refine ⟨rfl, rfl, fun _ => .none, fun group => ?_⟩
  cases group with
  | none => exact .ok hscope
  | some group => exact .error

namespace Rearranges

theorem held (h : registry.Rearranges other) (group : Option String) :
    (registry.held group).Rearranges (other.held group) := by
  have hscope := h.scopes group
  rw [Registry.held, Registry.held]
  generalize registry.scope group = one at hscope
  generalize other.scope group = two at hscope
  cases hscope with
  | error => exact ⟨rfl, rfl, rfl, .none⟩
  | ok hrearranged => exact hrearranged

theorem updateScope (h : registry.Rearranges other) (group : Option String)
    {change turn : Scope → Scope}
    (hchange : ∀ {scope made}, scope.Rearranges made → (change scope).Rearranges (turn made)) :
    (registry.updateScope group change).Rearranges (other.updateScope group turn) := by
  refine ⟨?_, ?_, fun type => ?_, fun name => ?_⟩
  · rw [creators_updateScope, creators_updateScope, h.creators]
  · rw [tries_updateScope, tries_updateScope, h.tries]
  · rw [(updateScope_types registry group change type).2,
      (updateScope_types other group turn type).2]
    exact h.redirects type
  · rw [scope_updateScope, scope_updateScope]
    split
    · exact .ok (hchange (h.held group))
    · exact h.scopes name

theorem openScope (h : registry.Rearranges other) (hgiven : Rearranged redirects made)
    (group : Option String) :
    (registry.openScope redirects group).Rearranges (other.openScope made group) := by
  rw [openScope_eq, openScope_eq]
  exact h.updateScope group fun hscope =>
    ⟨hscope.creators, hscope.thunks, hscope.selectors, hscope.redirects.or hgiven⟩

theorem recordReaction (h : registry.Rearranges other) (hgiven : Rearranged redirects made)
    (group : Option String) (name : String) (payload : PayloadOf) (effects : List SliceEffect) :
    (registry.recordReaction redirects group name payload effects).Rearranges
      (other.recordReaction made group name payload effects) := by
  have hsteps : place made effects = place redirects effects := by
    simp only [place, hgiven.steps_eq]
  refine ⟨?_, ?_, fun type => ?_, fun scope => ?_⟩
  · simp only [Registry.recordReaction, creators_updateScope, h.creators]
  · simp only [Registry.recordReaction, tries_updateScope, h.tries, addEffects_eq, hsteps]
  · rw [(recordReaction_types registry redirects group name payload effects type).2,
      (recordReaction_types other made group name payload effects type).2]
    split
    · exact (h.redirects type).or hgiven
    · exact h.redirects type
  · have hscope : ∀ (held : Registry) (given : Option Redirects),
        (held.recordReaction given group name payload effects).scope scope =
          (held.updateScope group fun scope => { scope with
            creators := Table.set scope.creators name ⟨qualify group name, payload⟩ }).scope
              scope := by
      intro held given
      cases group <;> cases scope <;> rfl
    rw [hscope, hscope]
    refine (h.updateScope group fun {scope made} hrearranged => ?_).scopes scope
    exact ⟨by rw [hrearranged.creators], hrearranged.thunks, hrearranged.selectors,
      hrearranged.redirects⟩

theorem recordEntry (h : registry.Rearranges other) (hgiven : Rearranged redirects made)
    (group : Option String) (name : String) (entry : Entry) :
    (registry.recordEntry redirects group name entry).Rearranges
      (other.recordEntry made group name entry) := by
  unfold Registry.recordEntry
  split
  · exact h.recordReaction hgiven group name _ _
  · exact h
  · exact h.updateScope group fun hscope =>
      ⟨hscope.creators, hscope.thunks, by rw [hscope.selectors], hscope.redirects⟩
  · exact h.updateScope group fun hscope =>
      ⟨hscope.creators, by rw [hscope.thunks], hscope.selectors, hscope.redirects⟩

theorem record (h : registry.Rearranges other) (hgiven : Rearranged redirects made)
    (batch : List Declarations) (group : Option String) :
    (registry.record batch redirects group).Rearranges (other.record batch made group) :=
  List.foldl_rel (h.openScope hgiven group) fun _ _ _ _ h =>
    List.foldl_rel h fun entry _ _ _ h => h.recordEntry hgiven group entry.1 entry.2

/-! ### The check -/

theorem checkGroup_eq (h : registry.Rearranges other) (hgiven : Rearranged redirects made)
    (group : Option String) :
    other.checkGroup made group = registry.checkGroup redirects group := by
  cases group with
  | none => rfl
  | some group =>
      have hscope := h.scopes (some group)
      rw [Registry.scope, Registry.scope] at hscope
      rw [checkGroup, checkGroup]
      cases hone : Table.get? registry.groups group with
      | none =>
          cases htwo : Table.get? other.groups group with
          | none => rfl
          | some scope =>
              rw [hone, htwo] at hscope
              cases hscope
      | some scope =>
          cases htwo : Table.get? other.groups group with
          | none =>
              rw [hone, htwo] at hscope
              cases hscope
          | some held =>
              rw [hone, htwo] at hscope
              cases hscope with
              | ok hrearranged =>
                  dsimp only
                  rw [hrearranged.redirects.eqvOption_eq hgiven]

theorem checkEntry_eq (h : registry.Rearranges other) (hgiven : Rearranged redirects made)
    (group : Option String) (name : String) (entry : Entry) :
    other.checkEntry made group name entry = registry.checkEntry redirects group name entry := by
  cases entry with
  | reaction reaction =>
      have htype := (h.redirects (qualify group name)).eqvOption_eq hgiven
      simp only [checkEntry, checkRedirects, creator?, h.creators, htype]
  | _ => rfl

theorem check_eq (h : registry.Rearranges other) (hgiven : Rearranged redirects made)
    (batch : List Declarations) (group : Option String) :
    other.check batch made group = registry.check batch redirects group := by
  simp only [check, h.checkGroup_eq hgiven, h.checkEntry_eq hgiven]

/-- **Calls that differ in order only end alike in registries that do.** -/
theorem register (h : registry.Rearranges other) (hgiven : Rearranged redirects made)
    (batch : List Declarations) (group : Option String) :
    Parallel Rearranges (registry.register batch redirects group)
      (other.register batch made group) := by
  rw [Registry.register, Registry.register, h.check_eq hgiven]
  cases registry.check batch redirects group with
  | error fault => exact .error
  | ok _ => exact .ok (h.record hgiven batch group)

theorem step (h : registry.Rearranges other) {command turned : Command}
    (hcommand : command.Rearranged turned) :
    (registry.step command).Rearranges (other.step turned) := by
  cases hcommand with
  | clear => exact rearranges_empty
  | register hgiven =>
      rename_i batch redirects made group
      have hends := h.register hgiven batch group
      rw [Registry.step, Registry.step]
      generalize registry.register batch redirects group = one at hends
      generalize other.register batch made group = two at hends
      cases hends with
      | error => exact h
      | ok hnext => exact hnext

end Rearranges

/-- **Registries that were reached by calls that differ in order only differ in order only.** -/
theorem rearranges_after {commands others : List Command}
    (h : List.Forall₂ Command.Rearranged commands others) :
    (after commands).Rearranges (after others) := by
  have hfrom : ∀ {registry other : Registry}, registry.Rearranges other →
      (commands.foldl step registry).Rearranges (others.foldl step other) := by
    induction h with
    | nil => exact fun h => h
    | cons hfirst _ ih => exact fun h => ih (h.step hfirst)
  exact hfrom rearranges_empty

/-! ### What they are used for -/

/-- To show, to select and to reduce, both registries do the same work. -/
structure WorksLike (registry other : Registry) : Prop where
  view : ∀ type action root, Redirects.view (other.redirects? type) action root =
    Redirects.view (registry.redirects? type) action root
  groupView : ∀ state group, other.groupView state group = registry.groupView state group
  select : ∀ state group, other.select state group = registry.select state group
  reduce : ∀ state action, other.reduce state action = registry.reduce state action

theorem Rearranges.worksLike (h : registry.Rearranges other) : registry.WorksLike other := by
  have hview : ∀ type action root, Redirects.view (other.redirects? type) action root =
      Redirects.view (registry.redirects? type) action root :=
    fun type => (h.redirects type).view_eq
  refine ⟨hview, fun state group => ?_, fun state group => ?_, fun state action => ?_⟩
  · have hscope := h.scopes group
    rw [Registry.groupView, Registry.groupView]
    generalize registry.scope group = one at hscope
    generalize other.scope group = two at hscope
    cases hscope with
    | error => rfl
    | ok hrearranged =>
        exact hrearranged.redirects.view_eq Action.empty state
  · have hscope := h.scopes group
    rw [Registry.select, Registry.select]
    generalize registry.scope group = one at hscope
    generalize other.scope group = two at hscope
    cases hscope with
    | error => rfl
    | @ok scope made hrearranged =>
        show (Redirects.view made.redirects Action.empty state >>= fun view =>
            evalSelectors view made.selectors) =
          (Redirects.view scope.redirects Action.empty state >>= fun view =>
            evalSelectors view scope.selectors)
        rw [hrearranged.redirects.view_eq, hrearranged.selectors]
  · simp only [Registry.reduce, trie?, h.tries, hview]

/-! ### What they answer on different occasions -/

variable {state given : Node}

/-- Looking up a scope ends the same way on every occasion. -/
theorem agree_scope (registry : Registry) (group : Option String) :
    Agree (fun scope held => scope = held ∧ registry.scope group = .ok scope)
      (liftM (registry.scope group)) (liftM (registry.scope group)) := by
  intro next later
  cases registry.scope group with
  | error fault => exact .error
  | ok scope => exact .ok ⟨rfl, rfl⟩

theorem agree_groupView
    (hreads : ∀ scope, registry.scope group = .ok scope → scope.ReadsContent)
    (h : state.Akin given) :
    Agree Node.Akin (registry.groupView state group) (registry.groupView given group) := by
  refine (agree_scope registry group).bind ?_
  rintro scope _ ⟨rfl, hscope⟩
  exact Redirects.agree_view (hreads scope hscope).redirects Action.empty h

/-- Selected values, by the names of their selectors. -/
abbrev AkinTable : Table Node → Table Node → Prop :=
  List.Forall₂ (Node.AlikeField fun _ _ => True)

theorem agree_evalSelectors {view other : Node} {selectors : Table Selector}
    (hreads : ∀ entry ∈ selectors, (entry.2 view).toJson = (entry.2 other).toJson) :
    Agree AkinTable (evalSelectors view selectors) (evalSelectors other selectors) := by
  induction selectors with
  | nil => exact agree_pure .nil
  | cons entry rest ih =>
      obtain ⟨name, selector⟩ := entry
      obtain ⟨hfirst, hrest⟩ := List.forall_mem_cons.mp hreads
      rw [evalSelectors, evalSelectors]
      refine (agree_draft hfirst).bind fun hvalue => ?_
      exact (ih hrest).bind fun hvalues => agree_pure (.cons ⟨rfl, hvalue⟩ hvalues)

theorem agree_select
    (hreads : ∀ scope, registry.scope group = .ok scope → scope.ReadsContent)
    (h : state.Akin given) :
    Agree AkinTable (registry.select state group) (registry.select given group) := by
  refine (agree_scope registry group).bind ?_
  rintro scope _ ⟨rfl, hscope⟩
  obtain ⟨hredirects, hselectors⟩ := hreads scope hscope
  refine (Redirects.agree_view hredirects Action.empty h).bind fun {view other} hview => ?_
  exact agree_evalSelectors fun entry hentry =>
    hselectors entry hentry view other hview.toJson_eq

/-- The same work on states of one content gives one content, if what is called reads contents. -/
structure AgreesWith (registry other : Registry) : Prop where
  groupView : ∀ {state given : Node} group, state.Akin given →
    (∀ scope, registry.scope group = .ok scope → scope.ReadsContent) →
      Agree Node.Akin (registry.groupView state group) (other.groupView given group)
  select : ∀ {state given : Node} group, state.Akin given →
    (∀ scope, registry.scope group = .ok scope → scope.ReadsContent) →
      Agree AkinTable (registry.select state group) (other.select given group)
  reduce : ∀ {state given : Node} action, state.Akin given → registry.ReadsContent →
    Agree Node.Akin (registry.reduce state action) (other.reduce given action)

theorem WorksLike.agreesWith (h : registry.WorksLike other) : registry.AgreesWith other := by
  refine ⟨fun group hstate hreads => ?_, fun group hstate hreads => ?_,
    fun action hstate hreads => ?_⟩
  · rw [h.groupView]
    exact agree_groupView hreads hstate
  · rw [h.select]
    exact agree_select hreads hstate
  · rw [h.reduce]
    exact agree_reduce hreads action hstate

/--
**The view is settled property by property, and the order of redirects is not to be seen.**  A
view has the properties of the root in their order; where a property is redirected it shows the
node that its slice leads to in the root, or null, and elsewhere the node of the root; and that
is what comes of writing the redirects over the root one by one in any order.  Take two histories
of calls that differ in the order of redirects only.  Another such pair of calls is then accepted
by both or refused by both with one fault.  The two registries make the same views, and show,
select and reduce alike; with callbacks that read contents, also on other occasions and on
other states of the same content.
-/
theorem view_of_rearranged {commands others : List Command}
    (h : List.Forall₂ Command.Rearranged commands others) :
    (∀ redirects action root label, Table.Distinct redirects → root.Distinct →
      ∃ built after,
        (Redirects.view (some redirects) action root).run label = .ok (built, after) ∧
        Redirects.ByProperty redirects action root built) ∧
    (∀ batch redirects made group, Redirects.Rearranged redirects made →
      Parallel Rearranges ((after commands).register batch redirects group)
        ((after others).register batch made group)) ∧
    (after commands).WorksLike (after others) ∧
    (after commands).AgreesWith (after others) := by
  have hafter := rearranges_after h
  refine ⟨fun redirects action root label hredirects hroot => ?_,
    fun batch redirects made group hgiven => hafter.register hgiven batch group,
    hafter.worksLike, hafter.worksLike.agreesWith⟩
  obtain ⟨built, next, hview, -⟩ := Redirects.view_run (some redirects) action root label
  exact ⟨built, next, hview, Redirects.byProperty_of_view hredirects hroot hview⟩

/-! ### Two redirects, in both orders -/

/-- A group whose redirects are these. -/
def leftSent (redirects : Redirects) : List Command :=
  [.register (drops "drop" "list" .null) (some redirects) (some "left")]

/-- Either order shows the same, and a call that turns the order once more is accepted. -/
theorem view_of_rearranged_leftSent :
    (∃ built after,
      (Redirects.view (some twoSent) Action.empty boxAndLists).run 4 = .ok (built, after) ∧
      twoSent.ByProperty Action.empty boxAndLists built) ∧
    (∃ next later,
      (after (leftSent twoSent)).register (drops "take" "box" .null) (some twoSent.reverse)
        (some "left") = .ok next ∧
      (after (leftSent twoSent.reverse)).register (drops "take" "box" .null) (some twoSent)
        (some "left") = .ok later ∧
      next.Rearranges later) ∧
    (after (leftSent twoSent.reverse)).reduce boxAndLists ⟨"left.drop", .null⟩ =
      (after (leftSent twoSent)).reduce boxAndLists ⟨"left.drop", .null⟩ := by
  have hdistinct : Table.Distinct twoSent := by
    simp [twoSent, Table.Distinct, Table.keys]
  have hturned : Rearranged (some twoSent) (some twoSent.reverse) :=
    .some ⟨hdistinct, (List.reverse_perm twoSent).symm⟩
  have hback : Rearranged (some twoSent.reverse) (some twoSent) :=
    .some ⟨Redirects.distinct_of_perm hdistinct (List.reverse_perm twoSent).symm,
      List.reverse_perm twoSent⟩
  have hsent : List.Forall₂ Command.Rearranged (leftSent twoSent) (leftSent twoSent.reverse) :=
    .cons (.register hturned) .nil
  obtain ⟨hviews, hcalls, hworks, -⟩ := view_of_rearranged hsent
  refine ⟨hviews twoSent Action.empty boxAndLists 4 hdistinct ?_, ?_, hworks.reduce _ _⟩
  · simp [boxAndLists, Node.Distinct, Node.DistinctFields, Table.Distinct, Table.keys]
  · have haccepted : ∃ next, (after (leftSent twoSent)).register (drops "take" "box" .null)
        (some twoSent.reverse) (some "left") = .ok next := ⟨_, rfl⟩
    obtain ⟨next, hnext⟩ := haccepted
    have hends := hcalls (drops "take" "box" .null) _ _ (some "left") hback
    rw [hnext] at hends
    generalize (after (leftSent twoSent.reverse)).register _ _ _ = ending at hends ⊢
    cases hends with
    | ok hrearranged => exact ⟨next, _, hnext, rfl, hrearranged⟩

end Registry

end Reducer
