/-
What registrations add up to.

A registry is reached by calls that register batches or clear everything, and a call
that is refused changes nothing.  `Registry.accepted` reads off such a history, call by
call, the effects that were declared for an action type and accepted: each with the
steps of its slice under the redirects of its own call, in the order of the calls, of
the declarations in a call, and of the effects in a reaction.

The trie of the type is nothing but that list, merged.  The invariant is carried along
the history one call at a time; within a call the only thing to check is that recording
meets no effect the check would have refused, since such an effect would leave a trie
without anything in it.
-/
import Reducer.Proofs.Trie
import Reducer.Registry.Register

namespace Reducer

/-- An effect at the steps of its slice. -/
abbrev Placed := List Step × Effect

namespace Registry

/-- A call that changes a registry. -/
inductive Command
  /-- Registers a batch into a scope. -/
  | register (batch : List Declarations) (redirects : Option Redirects) (group : Option String)
  /-- Forgets everything. -/
  | clear

/-- The registry after a call; one that is refused changes nothing. -/
def step (registry : Registry) : Command → Registry
  | .register batch redirects group =>
      match registry.register batch redirects group with
      | .ok next => next
      | .error _ => registry
  | .clear => .empty

/-- The registry after calls, from an empty one on. -/
def after (commands : List Command) : Registry :=
  commands.foldl step .empty

/-! ### What was declared -/

/-- Effects at the steps of their slices. -/
def place (redirects : Option Redirects) (effects : List SliceEffect) : List Placed :=
  effects.filterMap fun declared =>
    declared.effect.map fun effect => (declared.slice.steps redirects, effect)

/-- What an entry declares for an action type. -/
def declaredBy (redirects : Option Redirects) (group : Option String) (type : String) :
    String × Entry → List Placed
  | (name, .reaction reaction) =>
      if qualify group name = type then place redirects reaction.effects else []
  | _ => []

/-- What a batch declares for an action type, in order. -/
def declared (batch : List Declarations) (redirects : Option Redirects) (group : Option String)
    (type : String) : List Placed :=
  batch.flatMap fun declarations => declarations.flatMap (declaredBy redirects group type)

/-- What is accepted for an action type by calls that begin at a registry, after `sofar`. -/
def acceptedFrom (registry : Registry) (type : String) (sofar : List Placed) :
    List Command → List Placed
  | [] => sofar
  | .clear :: rest => acceptedFrom .empty type [] rest
  | .register batch redirects group :: rest =>
      match registry.register batch redirects group with
      | .ok next => acceptedFrom next type (sofar ++ declared batch redirects group type) rest
      | .error _ => acceptedFrom registry type sofar rest

/-- What was accepted for an action type since everything was last forgotten. -/
def accepted (commands : List Command) (type : String) : List Placed :=
  acceptedFrom .empty type [] commands

/-! ### What the check lets through -/

theorem bind_ok {β γ : Type} {work : Except Fault β} {next : β → Except Fault γ} {value : γ}
    (h : work >>= next = .ok value) : ∃ first, work = .ok first ∧ next first = .ok value := by
  cases work with
  | error fault => cases h
  | ok first => exact ⟨first, rfl, h⟩

theorem forM_ok {β : Type} {items : List β} {check : β → Except Fault Unit}
    (h : items.forM check = .ok ()) : ∀ item ∈ items, check item = .ok () := by
  induction items with
  | nil => intro item hitem; cases hitem
  | cons first rest ih =>
      obtain ⟨_, hfirst, hrest⟩ := bind_ok h
      exact List.forall_mem_cons.mpr ⟨hfirst, ih hrest⟩

/-- A reaction that is let through has a payload, and its effects name a place and a change. -/
structure Complete (reaction : Reaction) : Prop where
  payload : reaction.payload.isSome = true
  effects : ∀ declared ∈ reaction.effects, declared.slice ≠ [] ∧ declared.effect.isSome = true

theorem complete_of_checkEntry {registry : Registry} {redirects : Option Redirects}
    {group : Option String} {name : String} {entry : Entry}
    (h : registry.checkEntry redirects group name entry = .ok ()) :
    ∀ reaction, entry = .reaction reaction → Complete reaction := by
  rintro reaction rfl
  dsimp only [checkEntry] at h
  split at h
  · cases h
  · rename_i hpayload
    obtain ⟨_, heffects, -⟩ := bind_ok h
    refine ⟨?_, fun declared hdeclared => ?_⟩
    · cases hreaction : reaction.payload with
      | none => simp [hreaction] at hpayload
      | some payload => rfl
    · have hchecked := forM_ok heffects declared hdeclared
      unfold checkEffect at hchecked
      split at hchecked
      · cases hchecked
      · rename_i hslice
        split at hchecked
        · cases hchecked
        · rename_i heffect
          exact ⟨by simpa using hslice, by simpa [Option.isSome_iff_ne_none] using heffect⟩

/-- A batch that is let through has the redirects of its group, and each entry is let through. -/
theorem check_ok {registry : Registry} {batch : List Declarations}
    {redirects : Option Redirects} {group : Option String}
    (h : registry.check batch redirects group = .ok ()) :
    registry.checkGroup redirects group = .ok () ∧ ∀ declarations ∈ batch, ∀ entry ∈ declarations,
      registry.checkEntry redirects group entry.1 entry.2 = .ok () := by
  obtain ⟨_, hgroup, hbatch⟩ := bind_ok h
  exact ⟨hgroup, fun declarations hdeclarations => forM_ok (forM_ok hbatch _ hdeclarations)⟩

/-! ### What recording does to the tries -/

/-- A reaction that was let through is recorded with its payload. -/
theorem Complete.recordEntry_eq {reaction : Reaction} (h : Complete reaction) (registry : Registry)
    (redirects : Option Redirects) (group : Option String) (name : String) :
    ∃ payload, registry.recordEntry redirects group name (.reaction reaction) =
      registry.recordReaction redirects group name payload reaction.effects := by
  obtain ⟨payload, effects⟩ := reaction
  obtain ⟨payload, rfl⟩ := Option.isSome_iff_exists.mp h.payload
  exact ⟨payload, rfl⟩

theorem addEffects_eq (redirects : Option Redirects) (effects : List SliceEffect)
    (trie : Trie Effect) :
    addEffects redirects trie effects = trie.insertAll (place redirects effects) := by
  induction effects generalizing trie with
  | nil => rfl
  | cons declared rest ih =>
      obtain ⟨slice, effect⟩ := declared
      cases effect with
      | none => exact ih trie
      | some effect => exact ih (trie.insert (slice.steps redirects) effect)

@[simp] theorem tries_updateScope (registry : Registry) (group : Option String)
    (change : Scope → Scope) : (registry.updateScope group change).tries = registry.tries := by
  cases group <;> rfl

/-- The trie of entries, if there are any. -/
def merged (entries : List Placed) : Option (Trie Effect) :=
  if entries = [] then none else some (Trie.empty.insertAll entries)

theorem merged_append {entries added : List Placed} (hadded : added ≠ []) :
    merged (entries ++ added) = some (((merged entries).getD Trie.empty).insertAll added) := by
  have hsum : entries ++ added ≠ [] := fun h => hadded (List.append_eq_nil_iff.mp h).2
  rw [merged, if_neg hsum, merged, Trie.insertAll, List.foldl_append]
  split
  · rename_i hnil
    rw [hnil]
    rfl
  · rfl

/-- The trie of a type, told by what was accepted for it so far. -/
def Merges (registry : Registry) (type : String) (entries : List Placed) : Prop :=
  registry.trie? type = merged entries

theorem Merges.updateScope {registry : Registry} {type : String} {entries : List Placed}
    (h : registry.Merges type entries) (group : Option String) (change : Scope → Scope) :
    (registry.updateScope group change).Merges type entries := by
  unfold Merges trie? at *
  rw [tries_updateScope, h]

theorem merges_recordReaction {registry : Registry} {type name : String} {entries : List Placed}
    (h : registry.Merges type entries) (redirects : Option Redirects) (group : Option String)
    (payload : PayloadOf) (effects : List SliceEffect)
    (heffects : ∀ declared ∈ effects, declared.effect.isSome = true) :
    (registry.recordReaction redirects group name payload effects).Merges type
      (entries ++ if qualify group name = type then place redirects effects else []) := by
  have htries : (registry.recordReaction redirects group name payload effects).tries =
      if effects.isEmpty then registry.tries
      else Table.update registry.tries (qualify group name) fun trie =>
        (trie.getD Trie.empty).insertAll (place redirects effects) := by
    simp only [recordReaction, tries_updateScope, addEffects_eq]
  unfold Merges trie? at *
  rw [htries]
  cases effects with
  | nil => simpa [place] using h
  | cons declared rest =>
      obtain ⟨hfirst, -⟩ := List.forall_mem_cons.mp heffects
      have hplaced : place redirects (declared :: rest) ≠ [] := by
        obtain ⟨effect, heffect⟩ := Option.isSome_iff_exists.mp hfirst
        simp [place, heffect]
      rw [List.isEmpty_cons, if_neg Bool.false_ne_true, Table.update, Table.get?_set]
      by_cases htype : qualify group name = type
      · rw [if_pos htype, if_pos htype, merged_append hplaced, htype, h]
      · rw [if_neg htype, if_neg htype, List.append_nil, h]

theorem merges_recordEntry {registry : Registry} {type : String} {entries : List Placed}
    (h : registry.Merges type entries) (redirects : Option Redirects) (group : Option String)
    (name : String) (entry : Entry)
    (hcomplete : ∀ reaction, entry = .reaction reaction → Complete reaction) :
    (registry.recordEntry redirects group name entry).Merges type
      (entries ++ declaredBy redirects group type (name, entry)) := by
  cases entry with
  | reaction reaction =>
      have hreaction := hcomplete reaction rfl
      obtain ⟨payload, hrecord⟩ := hreaction.recordEntry_eq registry redirects group name
      rw [hrecord]
      exact merges_recordReaction h redirects group payload reaction.effects
        fun declared hdeclared => (hreaction.effects declared hdeclared).2
  | selector selector =>
      rw [declaredBy, List.append_nil]
      · exact h.updateScope group _
      · intro name reaction heq
        cases heq
  | thunk thunk =>
      rw [declaredBy, List.append_nil]
      · exact h.updateScope group _
      · intro name reaction heq
        cases heq

/-- Recording a list of things one by one adds what each declares, in order. -/
theorem foldl_adds {β γ : Type} {Told : Registry → List γ → Prop} {items : List β}
    {record : Registry → β → Registry} {adds : β → List γ}
    (hrecord : ∀ item ∈ items, ∀ registry entries, Told registry entries →
      Told (record registry item) (entries ++ adds item)) :
    ∀ {registry : Registry} {entries : List γ}, Told registry entries →
      Told (items.foldl record registry) (entries ++ items.flatMap adds) := by
  induction items with
  | nil =>
      intro registry entries h
      simpa using h
  | cons item rest ih =>
      intro registry entries h
      obtain ⟨hfirst, hrest⟩ := List.forall_mem_cons.mp hrecord
      rw [List.foldl_cons, List.flatMap_cons, ← List.append_assoc]
      exact ih hrest (hfirst registry entries h)

/-- What every entry adds to, a batch adds to, once the scope is open. -/
theorem record_adds {γ : Type} (Told : Registry → List γ → Prop) {registry : Registry}
    {batch : List Declarations} {redirects : Option Redirects} {group : Option String}
    {adds : String × Entry → List γ} {entries : List γ}
    (hopened : Told (registry.openScope redirects group) entries)
    (hentry : ∀ declarations ∈ batch, ∀ entry ∈ declarations, ∀ registry entries,
      Told registry entries →
        Told (registry.recordEntry redirects group entry.1 entry.2) (entries ++ adds entry)) :
    Told (registry.record batch redirects group)
      (entries ++ batch.flatMap fun declarations => declarations.flatMap adds) :=
  foldl_adds (fun _ hdeclarations _ _ h => foldl_adds (hentry _ hdeclarations) h) hopened

/-- What every entry keeps, a batch that is accepted keeps, once the scope is open. -/
theorem register_keeps (Told : Registry → Prop) {registry next : Registry}
    {batch : List Declarations} {redirects : Option Redirects} {group : Option String}
    (hregister : registry.register batch redirects group = .ok next)
    (hopened : Told (registry.openScope redirects group))
    (hentry : ∀ declarations ∈ batch, ∀ entry ∈ declarations,
      (∀ reaction, entry.2 = .reaction reaction → Complete reaction) →
        ∀ between, Told between → Told (between.recordEntry redirects group entry.1 entry.2)) :
    Told next := by
  obtain ⟨_, hcheck, hrecord⟩ := bind_ok hregister
  obtain ⟨-, hentries⟩ := check_ok hcheck
  cases hrecord
  refine @record_adds Unit (fun next _ => Told next) _ _ _ _ (fun _ => []) [] hopened ?_
  intro declarations hdeclarations entry hmem between _ h
  exact hentry declarations hdeclarations entry hmem
    (complete_of_checkEntry (hentries declarations hdeclarations entry hmem)) between h

theorem merges_register {registry next : Registry} {type : String} {entries : List Placed}
    (h : registry.Merges type entries) {batch : List Declarations} {redirects : Option Redirects}
    {group : Option String} (hregister : registry.register batch redirects group = .ok next) :
    next.Merges type (entries ++ declared batch redirects group type) := by
  obtain ⟨_, hcheck, hrecord⟩ := bind_ok hregister
  obtain ⟨-, hentries⟩ := check_ok hcheck
  cases hrecord
  have hopened : (registry.openScope redirects group).Merges type entries := h.updateScope group _
  refine record_adds (fun registry entries => registry.Merges type entries) hopened ?_
  rintro declarations hdeclarations ⟨name, entry⟩ hentry registry entries h
  have hcomplete := complete_of_checkEntry (hentries declarations hdeclarations _ hentry)
  exact merges_recordEntry h redirects group name entry hcomplete

/-! ### Histories -/

theorem merges_acceptedFrom {type : String} {commands : List Command} :
    ∀ {registry : Registry} {sofar : List Placed}, registry.Merges type sofar →
      (commands.foldl step registry).Merges type (acceptedFrom registry type sofar commands) := by
  induction commands with
  | nil => intro registry sofar h; exact h
  | cons command rest ih =>
      intro registry sofar h
      rw [List.foldl_cons]
      cases command with
      | clear => exact ih (show Registry.empty.Merges type [] from rfl)
      | register batch redirects group =>
          rw [step, acceptedFrom]
          cases hregister : registry.register batch redirects group with
          | ok next => exact ih (merges_register h hregister)
          | error fault => exact ih h

/-- After any calls, the trie of a type is what was accepted for it, merged. -/
theorem trie?_after (commands : List Command) (type : String) :
    (after commands).trie? type = merged (accepted commands type) :=
  merges_acceptedFrom (show Registry.empty.Merges type [] from rfl)

theorem eq_nil_of_merged {entries : List Placed} (h : merged entries = none) : entries = [] := by
  unfold merged at h
  split at h
  · assumption
  · cases h

theorem holds_of_merged {entries : List Placed} {trie : Trie Effect}
    (h : merged entries = some trie) : entries ≠ [] ∧ trie.Holds entries := by
  unfold merged at h
  split at h
  · cases h
  · rename_i hsome
    cases h
    exact ⟨hsome, Trie.holds_insertAll hsome⟩

/--
**A trie is what was accepted for its action type.**  After any calls, refused ones
included, an action type has a trie just when some effect was accepted for it since
everything was last forgotten, and then the trie holds those effects and nothing else.
-/
theorem trie_after (commands : List Command) (type : String) :
    match (after commands).trie? type with
    | none => accepted commands type = []
    | some trie => accepted commands type ≠ [] ∧ trie.Holds (accepted commands type) := by
  rw [trie?_after]
  cases hmerged : merged (accepted commands type) with
  | none => exact eq_nil_of_merged hmerged
  | some trie => exact holds_of_merged hmerged

end Registry

end Reducer
