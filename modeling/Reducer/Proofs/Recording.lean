/-
What a batch leaves behind.

Recording goes entry by entry, and an entry may write to several tables at once: those of its
scope, by name, and those of the registry, by type.  Table by table it is simpler to say.  A
table of the scope is what it was, with all entries of its kind written over it in their order,
and so are the creators by type.  `Writes` says this of any list of entries that is recorded,
and is carried along the list one entry at a time.

Recording passes over a reaction that has no payload, and over an effect that does nothing.
Neither gets through the check, so of a batch that is accepted nothing is left out: `Records`
counts what is written against what the batch declares.
-/
import Reducer.Proofs.Merge
import Reducer.Proofs.Qualified

namespace Reducer

namespace Registry

/-! ### What an entry writes -/

/-- The creator that an entry writes under its name. -/
def creatorBy (group : Option String) : String × Entry → Table Creator
  | (name, .reaction ⟨some payload, _⟩) => [(name, ⟨qualify group name, payload⟩)]
  | _ => []

/-- The creator that an entry writes under its type. -/
def filedBy (group : Option String) (entry : String × Entry) : Table Creator :=
  (creatorBy group entry).map fun written => (written.2.type, written.2)

/-- The thunk that an entry writes under its name. -/
def thunkBy : String × Entry → Table Thunk
  | (name, .thunk thunk) => [(name, thunk)]
  | _ => []

/-- The selector that an entry writes under its name. -/
def selectorBy : String × Entry → Table Selector
  | (name, .selector selector) => [(name, selector)]
  | _ => []

end Registry

namespace Scope

/-- The scope under the redirects of a call, if it has any. -/
def under (scope : Scope) (redirects : Option Redirects) : Scope :=
  { scope with redirects := redirects.or scope.redirects }

/-- The scope with entries written over what it has. -/
def written (scope : Scope) (group : Option String) (entries : List (String × Entry)) : Scope :=
  { scope with
    creators := Table.merge scope.creators (entries.flatMap (Registry.creatorBy group))
    thunks := Table.merge scope.thunks (entries.flatMap Registry.thunkBy)
    selectors := Table.merge scope.selectors (entries.flatMap Registry.selectorBy) }

theorem written_nil (scope : Scope) (group : Option String) : scope.written group [] = scope :=
  rfl

theorem written_append (scope : Scope) (group : Option String)
    (front back : List (String × Entry)) :
    scope.written group (front ++ back) = (scope.written group front).written group back := by
  simp only [written, List.flatMap_append, Table.merge_append]

end Scope

namespace Registry

/-- What a group has registered: nothing, if there is no such group. -/
def held (registry : Registry) (group : Option String) : Scope :=
  (registry.scope group).toOption.getD Scope.empty

/-- The entries are recorded in their scope, and their creators by type. -/
structure Writes (registry next : Registry) (redirects : Option Redirects) (group : Option String)
    (entries : List (String × Entry)) : Prop where
  scope : next.scope group = .ok (((registry.held group).under redirects).written group entries)
  others : ∀ other, group ≠ other → next.scope other = registry.scope other
  creators : next.creators = Table.merge registry.creators (entries.flatMap (filedBy group))

/-- A batch is recorded, all of it. -/
structure Records (registry next : Registry) (batch : List Declarations)
    (redirects : Option Redirects) (group : Option String) : Prop where
  /-- Every entry is written over what the scope has under its name, and over no other scope. -/
  writes : registry.Writes next redirects group batch.flatten
  /-- There is a creator for each of the reactions. -/
  names : (batch.flatten.flatMap (creatorBy group)).map (·.1) =
    (reactions batch redirects group).map (·.name)
  /-- The types of the reactions have the redirects of the call. -/
  types : ∀ type, Declares batch group type → next.redirects? type = redirects
  /-- Effects are added to those that their type has, in their order. -/
  tries : ∀ type sofar, registry.Merges type sofar →
    next.Merges type (sofar ++ declared batch redirects group type)
  /-- No effect of a reaction is left out. -/
  effects : ∀ reaction ∈ reactions batch redirects group,
    (place reaction.redirects reaction.effects).length = reaction.effects.length
  /-- Nothing is different for a type that no reaction has. -/
  rest : ∀ type, ¬Declares batch group type → registry.SameFor next type

variable {registry between next : Registry} {redirects : Option Redirects} {group : Option String}
  {batch : List Declarations} {entries : List (String × Entry)}

/-! ### Writing entries into a scope -/

/-- A change of a scope makes it anew from what it was, and other scopes are what they were. -/
theorem scope_updateScope (registry : Registry) (group other : Option String)
    (change : Scope → Scope) :
    (registry.updateScope group change).scope other =
      if group = other then .ok (change (registry.held group)) else registry.scope other := by
  cases group with
  | none => cases other <;> rfl
  | some group =>
      cases other with
      | none => rfl
      | some other =>
          rw [scope, updateScope, Table.update, Table.get?_set]
          simp only [Option.some.injEq]
          by_cases hname : group = other
          · rw [if_pos hname, if_pos hname, held, scope]
            cases Table.get? registry.groups group <;> rfl
          · rw [if_neg hname, if_neg hname, scope]

theorem creators_updateScope (registry : Registry) (group : Option String)
    (change : Scope → Scope) :
    (registry.updateScope group change).creators = registry.creators := by
  cases group <;> rfl

theorem openScope_eq (registry : Registry) (redirects : Option Redirects) (group : Option String) :
    registry.openScope redirects group = registry.updateScope group (·.under redirects) := by
  cases redirects <;> rfl

theorem held_of_scope {scope : Scope} (h : registry.scope group = .ok scope) :
    registry.held group = scope := by
  rw [held, h]
  rfl

/-- A scope that is opened has nothing written into it yet. -/
theorem writes_openScope (registry : Registry) (redirects : Option Redirects)
    (group : Option String) :
    registry.Writes (registry.openScope redirects group) redirects group [] := by
  rw [openScope_eq]
  refine ⟨?_, fun other hne => ?_, creators_updateScope registry group _⟩
  · rw [scope_updateScope, if_pos rfl, Scope.written_nil]
  · rw [scope_updateScope, if_neg hne]

/-- One more entry is written, into its scope and by type. -/
theorem Writes.concat (h : registry.Writes between redirects group entries)
    {entry : String × Entry} {change : Scope → Scope}
    (hchange : ∀ scope, change scope = scope.written group [entry])
    (hscope : ∀ other, next.scope other = (between.updateScope group change).scope other)
    (hcreators : next.creators = Table.merge between.creators (filedBy group entry)) :
    registry.Writes next redirects group (entries ++ [entry]) := by
  refine ⟨?_, fun other hne => ?_, ?_⟩
  · rw [hscope, scope_updateScope, if_pos rfl, hchange, held_of_scope h.scope,
      Scope.written_append]
  · rw [hscope, scope_updateScope, if_neg hne, h.others other hne]
  · rw [hcreators, h.creators, List.flatMap_append, Table.merge_append, List.flatMap_singleton]

theorem Writes.recordEntry (h : registry.Writes between redirects group entries)
    (entry : String × Entry) :
    registry.Writes (between.recordEntry redirects group entry.1 entry.2) redirects group
      (entries ++ [entry]) := by
  obtain ⟨name, entry⟩ := entry
  cases entry with
  | reaction reaction =>
      obtain ⟨payload, effects⟩ := reaction
      cases payload with
      | some payload =>
          have hchange : ∀ scope : Scope,
              { scope with
                creators := Table.set scope.creators name ⟨qualify group name, payload⟩ } =
                scope.written group [(name, .reaction ⟨some payload, effects⟩)] := fun _ => rfl
          refine h.concat hchange (fun other => ?_) ?_
          · cases group <;> cases other <;> rfl
          · cases group <;> rfl
      | none =>
          -- Nothing is recorded, and there is nothing that the entry would write.
          obtain ⟨hscope, hothers, hcreators⟩ := h
          refine ⟨?_, hothers, ?_⟩
          · rw [Scope.written_append]
            exact hscope
          · rw [List.flatMap_append, List.flatMap_singleton, Table.merge_append]
            exact hcreators
  | selector selector =>
      exact h.concat (fun _ => rfl) (fun _ => rfl) (creators_updateScope between group _)
  | thunk thunk =>
      exact h.concat (fun _ => rfl) (fun _ => rfl) (creators_updateScope between group _)

/-- Recording a batch writes its entries, in order. -/
theorem writes_record (registry : Registry) (batch : List Declarations)
    (redirects : Option Redirects) (group : Option String) :
    registry.Writes (registry.record batch redirects group) redirects group batch.flatten := by
  have hentry : ∀ declarations ∈ batch, ∀ entry ∈ declarations, ∀ between entries,
      registry.Writes between redirects group entries →
        registry.Writes (between.recordEntry redirects group entry.1 entry.2) redirects group
          (entries ++ [entry]) := fun _ _ entry _ _ _ h => h.recordEntry entry
  have hrecord := record_adds (registry.Writes · redirects group ·)
    (writes_openScope registry redirects group) hentry
  simp only [List.flatMap_singleton', List.nil_append] at hrecord
  rwa [List.flatMap_id'] at hrecord

/-! ### What an accepted batch leaves -/

theorem reactions_eq (batch : List Declarations) (redirects : Option Redirects)
    (group : Option String) :
    reactions batch redirects group = batch.flatten.flatMap (registeredBy redirects group) := by
  rw [reactions, List.flatten_eq_flatMap, List.flatMap_assoc]
  rfl

theorem declares_iff {type : String} :
    Declares batch group type ↔ ∃ reaction ∈ reactions batch redirects group,
      reaction.type = type := by
  constructor
  · rintro ⟨declarations, hdeclarations, name, declared, hmem, htype⟩
    exact ⟨_, mem_reactions.mpr ⟨declarations, hdeclarations, name, declared, hmem, rfl⟩, htype⟩
  · rintro ⟨reaction, hreaction, htype⟩
    obtain ⟨declarations, hdeclarations, name, declared, hmem, rfl⟩ := mem_reactions.mp hreaction
    exact ⟨declarations, hdeclarations, name, declared, hmem, htype⟩

/-- Registration lets no reaction through that is not complete. -/
theorem complete_of_register (h : registry.register batch redirects group = .ok next) :
    ∀ entry ∈ batch.flatten, ∀ reaction, entry.2 = .reaction reaction → Complete reaction := by
  obtain ⟨_, hcheck, -⟩ := bind_ok h
  obtain ⟨-, hentries⟩ := check_ok hcheck
  intro entry hentry
  obtain ⟨declarations, hdeclarations, hmem⟩ := List.mem_flatten.mp hentry
  exact complete_of_checkEntry (hentries declarations hdeclarations entry hmem)

theorem map_creatorBy {entry : String × Entry}
    (h : ∀ reaction, entry.2 = .reaction reaction → Complete reaction) :
    (creatorBy group entry).map (·.1) = (registeredBy redirects group entry).map (·.name) := by
  obtain ⟨name, entry⟩ := entry
  cases entry with
  | reaction reaction =>
      obtain ⟨payload, effects⟩ := reaction
      obtain ⟨payload, rfl⟩ := Option.isSome_iff_exists.mp (h _ rfl).payload
      rfl
  | _ => rfl

theorem length_place {effects : List SliceEffect}
    (h : ∀ declared ∈ effects, declared.effect.isSome = true) (redirects : Option Redirects) :
    (place redirects effects).length = effects.length := by
  induction effects with
  | nil => rfl
  | cons declared rest ih =>
      obtain ⟨hfirst, hrest⟩ := List.forall_mem_cons.mp h
      obtain ⟨effect, heffect⟩ := Option.isSome_iff_exists.mp hfirst
      rw [place, List.filterMap_cons_some (by rw [heffect]; rfl), List.length_cons,
        List.length_cons, ← ih hrest, place]

/-- A type that has no creator has no redirects. -/
def FreshTypes (registry : Registry) : Prop :=
  ∀ type, registry.creator? type = none → registry.redirects? type = none

theorem freshTypes_recordEntry (h : registry.FreshTypes) (redirects : Option Redirects)
    (group : Option String) (name : String) (entry : Entry) :
    (registry.recordEntry redirects group name entry).FreshTypes := by
  intro type hnone
  unfold recordEntry at hnone ⊢
  split at hnone
  · obtain ⟨hcreator, hkept⟩ := recordReaction_types registry redirects group name _ _ type
    rw [hcreator] at hnone
    rw [hkept]
    split at hnone
    · cases hnone
    · rename_i hname
      rw [if_neg hname]
      exact h type hnone
  · exact h type hnone
  all_goals
    obtain ⟨hcreator, hkept⟩ := updateScope_types registry group _ type
    rw [hcreator] at hnone
    rw [hkept]
    exact h type hnone

theorem freshTypes_register (h : registry.FreshTypes)
    (hregister : registry.register batch redirects group = .ok next) : next.FreshTypes := by
  refine register_keeps FreshTypes hregister ?_ ?_
  · intro type hnone
    obtain ⟨hcreator, hkept⟩ := openScope_types registry redirects group type
    rw [hcreator] at hnone
    rw [hkept]
    exact h type hnone
  · intro _ _ entry _ _ between hbetween
    exact freshTypes_recordEntry hbetween redirects group entry.1 entry.2

theorem freshTypes_after (commands : List Command) : (after commands).FreshTypes := by
  have hany : ∀ command ∈ commands, (fun _ => True) command := fun _ _ => trivial
  exact registered_induction (fun registry _ => registry.FreshTypes) hany (fun _ _ => rfl)
    fun _ h hregister => freshTypes_register h hregister

/-- The type has the redirects of a call, if any, once a reaction of the type is recorded. -/
structure Turned (registry next : Registry) (redirects : Option Redirects) (type : String)
    (sofar : List Registered) : Prop where
  either : next.redirects? type = registry.redirects? type ∨
    next.redirects? type = redirects.or (registry.redirects? type)
  turned : ∀ reaction ∈ sofar, reaction.type = type →
    next.redirects? type = redirects.or (registry.redirects? type)

theorem Turned.congr {type : String} {sofar : List Registered}
    (h : registry.Turned between redirects type sofar)
    (hsame : next.redirects? type = between.redirects? type) :
    registry.Turned next redirects type sofar := by
  obtain ⟨heither, hturned⟩ := h
  rw [← hsame] at heither hturned
  exact ⟨heither, hturned⟩

theorem Turned.recordEntry {type : String} {sofar : List Registered}
    (h : registry.Turned between redirects type sofar) (group : Option String)
    {entry : String × Entry}
    (hcomplete : ∀ reaction, entry.2 = .reaction reaction → Complete reaction) :
    registry.Turned (between.recordEntry redirects group entry.1 entry.2) redirects type
      (sofar ++ registeredBy redirects group entry) := by
  obtain ⟨name, entry⟩ := entry
  cases entry with
  | reaction reaction =>
      obtain ⟨payload, hrecord⟩ := (hcomplete _ rfl).recordEntry_eq between redirects group name
      obtain ⟨-, hkept⟩ := recordReaction_types between redirects group name payload
        reaction.effects type
      rw [hrecord, registeredBy]
      by_cases htype : qualify group name = type
      · have hnow : redirects.or (between.redirects? type) =
            redirects.or (registry.redirects? type) := by
          rcases h.either with hold | hnew
          · rw [hold]
          · -- The type has been turned before, and is turned to the same redirects again.
            rw [hnew, ← Option.or_assoc, Option.or_self]
        rw [if_pos htype, hnow] at hkept
        exact ⟨Or.inr hkept, fun _ _ _ => hkept⟩
      · rw [if_neg htype] at hkept
        refine ⟨(h.congr hkept).either, fun other hother hname => ?_⟩
        rcases List.mem_append.mp hother with hold | hnew
        · exact (h.congr hkept).turned other hold hname
        · rw [List.mem_singleton.mp hnew] at hname
          exact absurd hname htype
  | _ =>
      rw [registeredBy, List.append_nil]
      · exact h.congr (updateScope_types between group _ type).2
      · intro _ _ heq
        cases heq

/-- A type that is declared gets the redirects of the call, if there are any. -/
theorem redirects?_register {type : String}
    (hregister : registry.register batch redirects group = .ok next)
    (hdeclares : Declares batch group type) :
    next.redirects? type = redirects.or (registry.redirects? type) := by
  have hcomplete := complete_of_register hregister
  obtain ⟨_, -, hrecord⟩ := bind_ok hregister
  cases hrecord
  have hopened : registry.Turned (registry.openScope redirects group) redirects type [] :=
    ⟨Or.inl (openScope_types registry redirects group type).2, List.forall_mem_nil _⟩
  have hturned := record_adds (registry.Turned · redirects type ·) hopened
    (fun declarations hdeclarations entry hentry between sofar h =>
      Turned.recordEntry h group (hcomplete entry
        (List.mem_flatten.mpr ⟨declarations, hdeclarations, hentry⟩)))
  obtain ⟨reaction, hreaction, htype⟩ := declares_iff.mp hdeclares
  exact hturned.turned reaction hreaction htype

/-- Redirects that were found equal to those of a call give way to them. -/
theorem or_eq_of_eqvOption {kept : Option Redirects}
    (h : Redirects.eqvOption kept redirects = true) : redirects.or kept = redirects := by
  cases redirects with
  | some given => rfl
  | none =>
      cases kept with
      | none => rfl
      | some held => cases h

/-- A call that declares a type and is accepted leaves the type with the redirects of the call. -/
theorem redirects?_of_declares {type : String} (hfresh : registry.FreshTypes)
    (hregister : registry.register batch redirects group = .ok next)
    (hdeclares : Declares batch group type) : next.redirects? type = redirects := by
  rw [redirects?_register hregister hdeclares]
  cases hcreator : registry.creator? type with
  | none => rw [hfresh type hcreator, Option.or_none]
  | some creator =>
      obtain ⟨_, hcheck, -⟩ := bind_ok hregister
      obtain ⟨-, hentries⟩ := check_ok hcheck
      obtain ⟨declarations, hdeclarations, name, reaction, hmem, rfl⟩ := hdeclares
      have hknown : (registry.creator? (qualify group name)).isSome = true := by
        rw [hcreator]
        rfl
      exact or_eq_of_eqvOption
        (eqvOption_of_checkEntry (hentries declarations hdeclarations _ hmem) hknown)

/-- A batch that is accepted is recorded, all of it. -/
theorem records_of_register (hfresh : registry.FreshTypes)
    (hregister : registry.register batch redirects group = .ok next) :
    registry.Records next batch redirects group := by
  have hcomplete := complete_of_register hregister
  refine ⟨?_, ?_, fun type => redirects?_of_declares hfresh hregister,
    fun type sofar h => merges_register h hregister, ?_,
    fun type => sameFor_register hregister⟩
  · obtain ⟨_, -, hrecord⟩ := bind_ok hregister
    cases hrecord
    exact writes_record registry batch redirects group
  · rw [reactions_eq, List.map_flatMap, List.map_flatMap]
    exact List.flatMap_congr fun entry hentry => map_creatorBy (hcomplete entry hentry)
  · intro reaction hreaction
    rw [reactions_eq, List.mem_flatMap] at hreaction
    obtain ⟨entry, hentry, hdeclared⟩ := hreaction
    obtain ⟨name, declared, rfl, rfl⟩ := mem_registeredBy.mp hdeclared
    exact length_place (fun effect heffect =>
      ((hcomplete _ hentry declared rfl).effects effect heffect).2) redirects

end Registry

end Reducer
