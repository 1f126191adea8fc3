/-
One scope, one set of redirects.

A reaction is registered under the redirects of its call, and registration refuses a call
whose redirects differ from those its group or one of its action types has already.  So all
that was ever accepted for a group, or for a type, was accepted under redirects that lead
alike, and those are the ones the registry keeps: callbacks and selectors of a group see
one view, and every slice of the group was turned into steps by the same redirects.

What was accepted is read off the history by `Registry.registered`, like the effects in
`Registry.accepted`, but with the slices still as they were declared.  Both invariants, of
a type and of a group, are carried along the history call by call and within a call entry
by entry.  Redirects agree when they send the same properties to equal slices; for the
check to see that, those that are kept must not name a property twice.
-/
import Reducer.Proofs.Registration
import Reducer.Proofs.Table

namespace Reducer

/-! ### Redirects that lead alike -/

/-- What a part is compared by: the name it is, or a predicate's identity. -/
def Part.ident : Part → Seg ⊕ Nat
  | key name => .inl (.key name)
  | index position => .inl (.index position)
  | predicate test => .inr test.id

theorem Part.beq_iff_ident {a b : Part} : (a == b) = true ↔ a.ident = b.ident := by
  cases a <;> cases b <;> simp [BEq.beq, ident]

theorem Slice.beq_iff_ident {a b : Slice} :
    (a == b) = true ↔ a.map Part.ident = b.map Part.ident := by
  induction a generalizing b with
  | nil => cases b <;> simp
  | cons part rest ih =>
      cases b with
      | nil => simp
      | cons other others => simp [Part.beq_iff_ident, ih]

namespace Redirects

/-- Where a property is sent, as far as slices can be compared. -/
def target? (redirects : Redirects) (name : String) : Option (List (Seg ⊕ Nat)) :=
  (Table.get? redirects name).map fun slice => slice.map Part.ident

/-- The same properties are sent to equal slices, or there are no redirects on either side. -/
def Agree (redirects other : Option Redirects) : Prop :=
  redirects.map target? = other.map target?

theorem agree_refl (redirects : Option Redirects) : Agree redirects redirects :=
  rfl

theorem Agree.symm {a b : Option Redirects} (h : Agree a b) : Agree b a :=
  Eq.symm h

theorem Agree.trans {a b c : Option Redirects} (h : Agree a b) (hnext : Agree b c) : Agree a c :=
  Eq.trans h hnext

theorem target?_eq_of_eqv {a b : Redirects} (ha : Table.Distinct a) (h : eqv a b = true) :
    target? a = target? b := by
  unfold eqv Table.eqvBy at h
  rw [Bool.and_eq_true, beq_iff_eq, List.all_eq_true] at h
  obtain ⟨hlength, hentries⟩ := h
  have hfound : ∀ name slice, Table.get? a name = some slice →
      ∃ other, Table.get? b name = some other ∧ slice.map Part.ident = other.map Part.ident := by
    intro name slice hslice
    have hentry := hentries _ (Table.mem_of_get? hslice)
    split at hentry
    · rename_i other hother
      exact ⟨other, hother, Slice.beq_iff_ident.mp hentry⟩
    · cases hentry
  have hperm : (Table.keys a).Perm (Table.keys b) :=
    Table.perm_keys ha hlength fun name slice hslice =>
      (hfound name slice hslice).imp fun _ hother => hother.1
  funext name
  unfold target?
  cases hget : Table.get? a name with
  | some slice =>
      obtain ⟨other, hother, hsame⟩ := hfound name slice hget
      rw [hother, Option.map_some, Option.map_some, hsame]
  | none =>
      have hmissing := (Table.get?_eq_none_iff a name).mp hget
      rw [hperm.mem_iff] at hmissing
      rw [(Table.get?_eq_none_iff b name).mpr hmissing]

theorem agree_of_eqvOption {a b : Option Redirects} (ha : ∀ held, a = some held → held.Distinct)
    (h : eqvOption a b = true) : Agree a b := by
  cases a with
  | none =>
      cases b with
      | none => rfl
      | some other => cases h
  | some held =>
      cases b with
      | none => cases h
      | some other => exact congrArg some (target?_eq_of_eqv (ha held rfl) h)

end Redirects

namespace Registry

/-! ### What was registered -/

/-- A reaction as it was registered. -/
structure Registered where
  /-- The redirects of the call. -/
  redirects : Option Redirects
  /-- The group of the call. -/
  group : Option String
  /-- The bare name. -/
  name : String
  /-- What happens where, in order. -/
  effects : List SliceEffect

/-- The type of the reaction's actions. -/
def Registered.type (reaction : Registered) : String :=
  qualify reaction.group reaction.name

/-- What the reaction declares for an action type. -/
def Registered.placed (type : String) (reaction : Registered) : List Placed :=
  if reaction.type = type then place reaction.redirects reaction.effects else []

/-- The reaction that an entry is, if it is one. -/
def registeredBy (redirects : Option Redirects) (group : Option String) :
    String × Entry → List Registered
  | (name, .reaction reaction) => [⟨redirects, group, name, reaction.effects⟩]
  | _ => []

/-- The reactions of a batch, in order. -/
def reactions (batch : List Declarations) (redirects : Option Redirects) (group : Option String) :
    List Registered :=
  batch.flatMap fun declarations => declarations.flatMap (registeredBy redirects group)

/-- The reactions that are accepted by calls that begin at a registry, after `sofar`. -/
def registeredFrom (registry : Registry) (sofar : List Registered) :
    List Command → List Registered
  | [] => sofar
  | .clear :: rest => registeredFrom .empty [] rest
  | .register batch redirects group :: rest =>
      match registry.register batch redirects group with
      | .ok next => registeredFrom next (sofar ++ reactions batch redirects group) rest
      | .error _ => registeredFrom registry sofar rest

/-- The reactions accepted since everything was last forgotten. -/
def registered (commands : List Command) : List Registered :=
  registeredFrom .empty [] commands

/-- The slices of the effects that were accepted for an action type. -/
def slices (commands : List Command) (type : String) : List Slice :=
  ((registered commands).filter (·.type = type)).flatMap fun reaction =>
    reaction.effects.map (·.slice)

theorem declaredBy_eq (redirects : Option Redirects) (group : Option String) (type : String)
    (entry : String × Entry) :
    declaredBy redirects group type entry =
      (registeredBy redirects group entry).flatMap (·.placed type) := by
  obtain ⟨name, entry⟩ := entry
  cases entry with
  | reaction reaction => exact (List.append_nil _).symm
  | _ => rfl

theorem declared_eq (batch : List Declarations) (redirects : Option Redirects)
    (group : Option String) (type : String) :
    declared batch redirects group type =
      (reactions batch redirects group).flatMap (·.placed type) := by
  simp only [declared, reactions, List.flatMap_assoc, funext (declaredBy_eq redirects group type)]

theorem mem_registeredBy {redirects : Option Redirects} {group : Option String}
    {entry : String × Entry} {reaction : Registered} :
    reaction ∈ registeredBy redirects group entry ↔ ∃ name declared,
      entry = (name, .reaction declared) ∧
        reaction = ⟨redirects, group, name, declared.effects⟩ := by
  obtain ⟨name, entry⟩ := entry
  cases entry <;> simp [registeredBy]

theorem mem_reactions {batch : List Declarations} {redirects : Option Redirects}
    {group : Option String} {reaction : Registered} :
    reaction ∈ reactions batch redirects group ↔ ∃ declarations ∈ batch, ∃ name declared,
      (name, Entry.reaction declared) ∈ declarations ∧
        reaction = ⟨redirects, group, name, declared.effects⟩ := by
  simp only [reactions, List.mem_flatMap, mem_registeredBy]
  constructor
  · rintro ⟨declarations, hdeclarations, _, hmem, name, declared, rfl, rfl⟩
    exact ⟨declarations, hdeclarations, name, declared, hmem, rfl⟩
  · rintro ⟨declarations, hdeclarations, name, declared, hmem, rfl⟩
    exact ⟨declarations, hdeclarations, _, hmem, name, declared, rfl, rfl⟩

theorem acceptedFrom_eq {type : String} {commands : List Command} :
    ∀ (registry : Registry) (sofar : List Registered),
      acceptedFrom registry type (sofar.flatMap (·.placed type)) commands =
        (registeredFrom registry sofar commands).flatMap (·.placed type) := by
  induction commands with
  | nil => intro registry sofar; rfl
  | cons command rest ih =>
      intro registry sofar
      cases command with
      | clear => exact ih .empty []
      | register batch redirects group =>
          rw [acceptedFrom, registeredFrom]
          cases registry.register batch redirects group with
          | error fault => exact ih registry sofar
          | ok next =>
              dsimp only
              rw [declared_eq, ← List.flatMap_append]
              exact ih next _

/-- What was accepted for a type is what its reactions declare. -/
theorem accepted_eq (commands : List Command) (type : String) :
    accepted commands type = (registered commands).flatMap (·.placed type) :=
  acceptedFrom_eq .empty []

/-! ### What the check says of redirects -/

theorem eqvOption_of_checkGroup {registry : Registry} {redirects : Option Redirects}
    {group : String} {scope : Scope} (h : registry.checkGroup redirects (some group) = .ok ())
    (hscope : Table.get? registry.groups group = some scope) :
    Redirects.eqvOption scope.redirects redirects = true := by
  rw [checkGroup, hscope] at h
  dsimp only at h
  split at h
  · assumption
  · cases h

theorem eqvOption_of_checkEntry {registry : Registry} {redirects : Option Redirects}
    {group : Option String} {name : String} {reaction : Reaction}
    (h : registry.checkEntry redirects group name (.reaction reaction) = .ok ())
    (hknown : (registry.creator? (qualify group name)).isSome = true) :
    Redirects.eqvOption (registry.redirects? (qualify group name)) redirects = true := by
  dsimp only [checkEntry] at h
  split at h
  · cases h
  · obtain ⟨_, -, hredirects⟩ := bind_ok h
    unfold checkRedirects at hredirects
    rw [hknown, Bool.true_and] at hredirects
    split at hredirects
    · cases hredirects
    · rename_i hsame
      simpa using hsame

/-! ### The redirects of a type -/

/-- What the registry keeps for a type is what the reactions of the type came with. -/
structure TypeKept (registry : Registry) (type : String) (sofar : List Registered) : Prop where
  distinct : ∀ held, registry.redirects? type = some held → held.Distinct
  fresh : registry.creator? type = none → registry.redirects? type = none
  agree : ∀ reaction ∈ sofar, reaction.type = type → (registry.creator? type).isSome = true ∧
    Redirects.Agree (registry.redirects? type) reaction.redirects

/-- What is kept for a type, if anything is, agrees with the redirects given. -/
def Admits (registry : Registry) (type : String) (redirects : Option Redirects) : Prop :=
  (registry.creator? type).isSome = true → Redirects.Agree (registry.redirects? type) redirects

/-- Some reaction of the batch has the type. -/
def Declares (batch : List Declarations) (group : Option String) (type : String) : Prop :=
  ∃ declarations ∈ batch, ∃ name reaction, (name, Entry.reaction reaction) ∈ declarations ∧
    qualify group name = type

variable {registry next : Registry} {redirects : Option Redirects} {group : Option String}
  {type : String} {sofar : List Registered}

/-- A change of a scope changes nothing that is kept by type. -/
theorem updateScope_types (registry : Registry) (group : Option String) (change : Scope → Scope)
    (type : String) :
    (registry.updateScope group change).creator? type = registry.creator? type ∧
      (registry.updateScope group change).redirects? type = registry.redirects? type := by
  cases group <;> exact ⟨rfl, rfl⟩

theorem openScope_types (registry : Registry) (redirects : Option Redirects)
    (group : Option String) (type : String) :
    (registry.openScope redirects group).creator? type = registry.creator? type ∧
      (registry.openScope redirects group).redirects? type = registry.redirects? type :=
  updateScope_types registry group _ type

theorem recordReaction_types (registry : Registry) (redirects : Option Redirects)
    (group : Option String) (name : String) (payload : PayloadOf) (effects : List SliceEffect)
    (type : String) :
    (registry.recordReaction redirects group name payload effects).creator? type =
        (if qualify group name = type then some ⟨qualify group name, payload⟩
          else registry.creator? type) ∧
      (registry.recordReaction redirects group name payload effects).redirects? type =
        if qualify group name = type then redirects.or (registry.redirects? type)
          else registry.redirects? type := by
  have hcreators := Table.get?_set registry.creators (qualify group name)
    (⟨qualify group name, payload⟩ : Creator) type
  constructor
  · cases group <;> exact hcreators
  · cases redirects with
    | none => cases group <;> exact (ite_self _).symm
    | some held =>
        have hredirects := Table.get?_set registry.redirects (qualify group name) held type
        cases group <;> exact hredirects

theorem TypeKept.congr (h : registry.TypeKept type sofar)
    (hcreator : next.creator? type = registry.creator? type)
    (hredirects : next.redirects? type = registry.redirects? type) {added : List Registered}
    (hadded : ∀ reaction ∈ added, reaction.type ≠ type) : next.TypeKept type (sofar ++ added) := by
  obtain ⟨hdistinct, hfresh, hagree⟩ := h
  rw [← hcreator, ← hredirects] at hfresh
  rw [← hredirects] at hdistinct
  refine ⟨hdistinct, hfresh, fun reaction hreaction htype => ?_⟩
  rw [hcreator, hredirects]
  rcases List.mem_append.mp hreaction with hold | hnew
  · exact hagree reaction hold htype
  · exact absurd htype (hadded reaction hnew)

/-- The redirects given, or else those that are kept, agree with those given. -/
theorem Admits.agree_or (h : registry.Admits type redirects)
    (hfresh : registry.creator? type = none → registry.redirects? type = none) :
    Redirects.Agree (redirects.or (registry.redirects? type)) redirects := by
  cases redirects with
  | some held => exact Redirects.agree_refl _
  | none =>
      cases hknown : registry.creator? type with
      | none =>
          rw [hfresh hknown]
          exact Redirects.agree_refl _
      | some creator => exact h (by rw [hknown]; rfl)

/-- What a reaction leaves behind for its own type agrees with the redirects it came with. -/
theorem typeKept_recordReaction (hredirects : ∀ held, redirects = some held → held.Distinct)
    (name : String) (payload : PayloadOf) (effects : List SliceEffect)
    (hadmits : qualify group name = type → registry.Admits type redirects)
    (h : registry.TypeKept type sofar) :
    (registry.recordReaction redirects group name payload effects).TypeKept type
      (sofar ++ [⟨redirects, group, name, effects⟩]) := by
  obtain ⟨hcreator, hkept⟩ := recordReaction_types registry redirects group name payload effects
    type
  by_cases hname : qualify group name = type
  · rw [if_pos hname] at hcreator hkept
    obtain ⟨hdistinct, hfresh, hagree⟩ := h
    have hnow := (hadmits hname).agree_or hfresh
    refine ⟨fun held hheld => ?_, fun hnone => ?_, fun reaction hreaction htype => ?_⟩
    · rw [hkept] at hheld
      rcases Option.or_eq_some_iff.mp hheld with hgiven | ⟨-, hold⟩
      · exact hredirects held hgiven
      · exact hdistinct held hold
    · rw [hcreator] at hnone
      cases hnone
    · rw [hcreator, hkept]
      refine ⟨rfl, ?_⟩
      rcases List.mem_append.mp hreaction with hold | hnew
      · obtain ⟨hknown, hsame⟩ := hagree reaction hold htype
        exact hnow.trans ((hadmits hname hknown).symm.trans hsame)
      · rw [List.mem_singleton.mp hnew]
        exact hnow
  · rw [if_neg hname] at hcreator hkept
    refine h.congr hcreator hkept fun reaction hreaction => ?_
    rw [List.mem_singleton.mp hreaction]
    exact hname

theorem admits_recordReaction (name : String) (payload : PayloadOf) (effects : List SliceEffect)
    (hfresh : registry.creator? type = none → registry.redirects? type = none)
    (h : registry.Admits type redirects) :
    (registry.recordReaction redirects group name payload effects).Admits type redirects := by
  obtain ⟨hcreator, hkept⟩ := recordReaction_types registry redirects group name payload effects
    type
  intro hknown
  rw [hkept]
  split
  · exact h.agree_or hfresh
  · rename_i hname
    rw [hcreator, if_neg hname] at hknown
    exact h hknown

/-- Recording an entry keeps the account of every type, if its own type admits the redirects. -/
theorem typeKept_recordEntry (hredirects : ∀ held, redirects = some held → held.Distinct)
    (name : String) (entry : Entry)
    (hcomplete : ∀ reaction, entry = .reaction reaction → Complete reaction)
    (hown : ∀ reaction, entry = .reaction reaction → qualify group name = type →
      registry.Admits type redirects)
    (h : registry.TypeKept type sofar) :
    (registry.recordEntry redirects group name entry).TypeKept type
        (sofar ++ registeredBy redirects group (name, entry)) ∧
      (registry.Admits type redirects →
        (registry.recordEntry redirects group name entry).Admits type redirects) := by
  have hscope : ∀ change, (registry.updateScope group change).TypeKept type (sofar ++ []) ∧
      (registry.Admits type redirects →
        (registry.updateScope group change).Admits type redirects) := by
    intro change
    obtain ⟨hcreator, hkept⟩ := updateScope_types registry group change type
    refine ⟨h.congr hcreator hkept (by simp), fun hadmits => ?_⟩
    unfold Admits
    rw [hcreator, hkept]
    exact hadmits
  cases entry with
  | reaction reaction =>
      obtain ⟨payload, hrecord⟩ := (hcomplete reaction rfl).recordEntry_eq registry redirects group
        name
      rw [hrecord]
      exact ⟨typeKept_recordReaction hredirects name payload reaction.effects (hown _ rfl) h,
        admits_recordReaction name payload reaction.effects h.fresh⟩
  | selector selector =>
      exact hscope fun scope => { scope with selectors := Table.set scope.selectors name selector }
  | thunk thunk =>
      exact hscope fun scope => { scope with thunks := Table.set scope.thunks name thunk }

theorem typeKept_register (h : registry.TypeKept type sofar) {batch : List Declarations}
    (hredirects : ∀ held, redirects = some held → held.Distinct)
    (hregister : registry.register batch redirects group = .ok next) :
    next.TypeKept type (sofar ++ reactions batch redirects group) := by
  obtain ⟨_, hcheck, hrecord⟩ := bind_ok hregister
  obtain ⟨-, hentries⟩ := check_ok hcheck
  cases hrecord
  obtain ⟨hcreator, hkept⟩ := openScope_types registry redirects group type
  have hopened := h.congr hcreator hkept (List.forall_mem_nil _)
  rw [List.append_nil] at hopened
  have hadmits : Declares batch group type →
      (registry.openScope redirects group).Admits type redirects := by
    rintro ⟨declarations, hdeclarations, name, reaction, hentry, rfl⟩ hknown
    have hsame := eqvOption_of_checkEntry (hentries declarations hdeclarations _ hentry)
      (hcreator ▸ hknown)
    rw [hkept]
    exact Redirects.agree_of_eqvOption h.distinct hsame
  refine (record_adds (fun registry sofar => registry.TypeKept type sofar ∧
    (Declares batch group type → registry.Admits type redirects)) ⟨hopened, hadmits⟩ ?_).1
  rintro declarations hdeclarations ⟨name, entry⟩ hentry registry entries ⟨hheld, hadmits⟩
  have hown : ∀ reaction, entry = .reaction reaction → qualify group name = type →
      registry.Admits type redirects := by
    rintro reaction rfl hname
    exact hadmits ⟨declarations, hdeclarations, name, reaction, hentry, hname⟩
  have hcomplete := complete_of_checkEntry (hentries declarations hdeclarations _ hentry)
  obtain ⟨hnext, hstays⟩ := typeKept_recordEntry hredirects name entry hcomplete hown hheld
  exact ⟨hnext, fun hdeclares => hstays (hadmits hdeclares)⟩

/-! ### The redirects of a group -/

/-- The group is there, with redirects that agree with those given. -/
def Opened (registry : Registry) (group : String) (redirects : Option Redirects) : Prop :=
  ∃ scope, Table.get? registry.groups group = some scope ∧
    Redirects.Agree scope.redirects redirects

/-- What the registry keeps for a group is what the reactions of the group came with. -/
structure GroupKept (registry : Registry) (group : String) (sofar : List Registered) : Prop where
  distinct : ∀ scope held, Table.get? registry.groups group = some scope →
    scope.redirects = some held → held.Distinct
  agree : ∀ reaction ∈ sofar, reaction.group = some group →
    registry.Opened group reaction.redirects
  members : ∀ name, (registry.groupCreator? group name).isSome = true →
    ∃ reaction ∈ sofar, reaction.type = qualify (some group) name ∧ reaction.group = some group

variable {name : String}

/-- The scope of one group is changed, if of any, and it is made where it was missing. -/
def ChangesScope (registry next : Registry) (group : Option String) (change : Scope → Scope) :
    Prop :=
  next.groups = (registry.updateScope group change).groups

variable {change : Scope → Scope}

theorem ChangesScope.get? (h : registry.ChangesScope next group change) (name : String) :
    Table.get? next.groups name =
      if group = some name then
        some (change ((Table.get? registry.groups name).getD Scope.empty))
      else Table.get? registry.groups name := by
  rw [h]
  cases group with
  | none => rfl
  | some group =>
      rw [updateScope, Table.update, Table.get?_set]
      simp only [Option.some.injEq]
      split
      · rename_i hname
        rw [hname]
      · rfl

/-- A change that leaves the redirects of a scope alone leaves them to its group. -/
theorem ChangesScope.opened (h : registry.ChangesScope next group change)
    (hchange : ∀ scope, (change scope).redirects = scope.redirects)
    (hopened : registry.Opened name redirects) : next.Opened name redirects := by
  obtain ⟨scope, hscope, hagree⟩ := hopened
  unfold Opened
  rw [h.get?, hscope]
  split
  · exact ⟨change scope, rfl, (hchange scope).symm ▸ hagree⟩
  · exact ⟨scope, rfl, hagree⟩

/-- Recording into the scope of a group keeps the account of every group. -/
theorem ChangesScope.groupKept (h : registry.ChangesScope next group change)
    (hchange : ∀ scope, (change scope).redirects = scope.redirects) {added : List Registered}
    (hcreators : ∀ scope other, (Table.get? (change scope).creators other).isSome = true →
      (Table.get? scope.creators other).isSome = true ∨ ∃ reaction ∈ added, reaction.name = other)
    (hadded : ∀ reaction ∈ added, reaction.group = group ∧ reaction.redirects = redirects)
    (hopened : group = some name → registry.Opened name redirects)
    (hkept : registry.GroupKept name sofar) : next.GroupKept name (sofar ++ added) := by
  obtain ⟨hdistinct, hagree, hmembers⟩ := hkept
  refine ⟨fun scope held hscope hheld => ?_, fun reaction hreaction hgroup => ?_,
    fun other hother => ?_⟩
  · rw [h.get?] at hscope
    split at hscope
    · rename_i hname
      obtain ⟨before, hbefore, -⟩ := hopened hname
      rw [hbefore] at hscope
      cases hscope
      exact hdistinct before held hbefore ((hchange before).symm.trans hheld)
    · exact hdistinct scope held hscope hheld
  · rcases List.mem_append.mp hreaction with hold | hnew
    · exact h.opened hchange (hagree reaction hold hgroup)
    · obtain ⟨hsame, hgiven⟩ := hadded reaction hnew
      rw [hgiven]
      exact h.opened hchange (hopened (hsame.symm.trans hgroup))
  · have hmember : (registry.groupCreator? name other).isSome = true ∨
        group = some name ∧ ∃ reaction ∈ added, reaction.name = other := by
      unfold groupCreator? at hother ⊢
      rw [h.get?] at hother
      split at hother
      · rename_i hname
        obtain ⟨before, hbefore, -⟩ := hopened hname
        rw [hbefore] at hother ⊢
        exact (hcreators before other hother).imp id fun hnew => ⟨hname, hnew⟩
      · exact Or.inl hother
    rcases hmember with hold | ⟨hname, reaction, hreaction, rfl⟩
    · obtain ⟨reaction, hreaction, hfound⟩ := hmembers other hold
      exact ⟨reaction, List.mem_append_left _ hreaction, hfound⟩
    · have hgroup := (hadded reaction hreaction).1.trans hname
      exact ⟨reaction, List.mem_append_right _ hreaction, congrArg (qualify · _) hgroup, hgroup⟩

/-- Opening a scope gives its group the redirects of the call, which agree with those it has. -/
theorem groupKept_openScope (hredirects : ∀ held, redirects = some held → held.Distinct)
    (hcheck : registry.checkGroup redirects group = .ok ()) (h : registry.GroupKept name sofar) :
    (registry.openScope redirects group).GroupKept name sofar ∧
      (group = some name → (registry.openScope redirects group).Opened name redirects) := by
  obtain ⟨hdistinct, hagree, hmembers⟩ := h
  have hnext : registry.ChangesScope (registry.openScope redirects group) group _ := rfl
  have hget := hnext.get? name
  by_cases hname : group = some name
  · subst hname
    rw [if_pos rfl] at hget
    have hbefore : ∀ scope, Table.get? registry.groups name = some scope →
        Redirects.Agree scope.redirects redirects := fun scope hscope =>
      Redirects.agree_of_eqvOption (hdistinct scope · hscope)
        (eqvOption_of_checkGroup hcheck hscope)
    have hopened : (registry.openScope redirects (some name)).Opened name redirects := by
      refine ⟨_, hget, ?_⟩
      cases redirects with
      | some held => exact Redirects.agree_refl _
      | none =>
          cases hscope : Table.get? registry.groups name with
          | none => exact Redirects.agree_refl _
          | some scope => exact hbefore scope hscope
    refine ⟨⟨fun scope held hscope hheld => ?_, fun reaction hreaction hgroup => ?_,
      fun other hother => ?_⟩, fun _ => hopened⟩
    · obtain rfl := Option.some.inj (hget.symm.trans hscope)
      cases redirects with
      | some given => exact hredirects held hheld
      | none =>
          cases hold : Table.get? registry.groups name with
          | none => rw [hold] at hheld; cases hheld
          | some before =>
              rw [hold] at hheld
              exact hdistinct before held hold hheld
    · obtain ⟨before, hold, hsame⟩ := hagree reaction hreaction hgroup
      obtain ⟨scope, hscope, hnow⟩ := hopened
      exact ⟨scope, hscope, hnow.trans ((hbefore before hold).symm.trans hsame)⟩
    · refine hmembers other ?_
      unfold groupCreator? at hother ⊢
      rw [hget] at hother
      cases hold : Table.get? registry.groups name with
      | none => rw [hold] at hother; cases redirects <;> cases hother
      | some before => rw [hold] at hother; cases redirects <;> exact hother
  · rw [if_neg hname] at hget
    refine ⟨⟨?_, ?_, ?_⟩, fun h => absurd h hname⟩
    · rw [hget]
      exact hdistinct
    · unfold Opened
      rw [hget]
      exact hagree
    · unfold groupCreator?
      rw [hget]
      exact hmembers

theorem groupKept_recordEntry (bare : String) (entry : Entry)
    (hcomplete : ∀ reaction, entry = .reaction reaction → Complete reaction)
    (hopened : group = some name → registry.Opened name redirects)
    (h : registry.GroupKept name sofar) :
    (registry.recordEntry redirects group bare entry).GroupKept name
        (sofar ++ registeredBy redirects group (bare, entry)) ∧
      (group = some name →
        (registry.recordEntry redirects group bare entry).Opened name redirects) := by
  cases entry with
  | reaction reaction =>
      obtain ⟨payload, hrecord⟩ := (hcomplete reaction rfl).recordEntry_eq registry redirects group
        bare
      have hnext : registry.ChangesScope
          (registry.recordReaction redirects group bare payload reaction.effects) group fun scope =>
            { scope with
              creators := Table.set scope.creators bare ⟨qualify group bare, payload⟩ } := by
        cases group <;> rfl
      rw [hrecord]
      refine ⟨hnext.groupKept (fun _ => rfl) (fun scope other hother => ?_) ?_ hopened h,
        fun hname => hnext.opened (fun _ => rfl) (hopened hname)⟩
      · rw [Table.get?_set] at hother
        split at hother
        · rename_i hbare
          exact Or.inr ⟨_, List.mem_singleton_self _, hbare⟩
        · exact Or.inl hother
      · intro reaction hreaction
        rw [List.mem_singleton.mp hreaction]
        exact ⟨rfl, rfl⟩
  | selector selector =>
      have hnext : registry.ChangesScope
          (registry.recordEntry redirects group bare (.selector selector)) group _ := rfl
      exact ⟨hnext.groupKept (fun _ => rfl) (fun _ _ => Or.inl) (List.forall_mem_nil _) hopened h,
        fun hname => hnext.opened (fun _ => rfl) (hopened hname)⟩
  | thunk thunk =>
      have hnext : registry.ChangesScope
          (registry.recordEntry redirects group bare (.thunk thunk)) group _ := rfl
      exact ⟨hnext.groupKept (fun _ => rfl) (fun _ _ => Or.inl) (List.forall_mem_nil _) hopened h,
        fun hname => hnext.opened (fun _ => rfl) (hopened hname)⟩

theorem groupKept_register (h : registry.GroupKept name sofar) {batch : List Declarations}
    (hredirects : ∀ held, redirects = some held → held.Distinct)
    (hregister : registry.register batch redirects group = .ok next) :
    next.GroupKept name (sofar ++ reactions batch redirects group) := by
  obtain ⟨_, hcheck, hrecord⟩ := bind_ok hregister
  obtain ⟨hgroup, hentries⟩ := check_ok hcheck
  cases hrecord
  have hopened := groupKept_openScope hredirects hgroup h
  refine (record_adds (fun registry sofar => registry.GroupKept name sofar ∧
    (group = some name → registry.Opened name redirects)) hopened ?_).1
  rintro declarations hdeclarations ⟨bare, entry⟩ hentry registry entries ⟨hheld, hopened⟩
  have hcomplete := complete_of_checkEntry (hentries declarations hdeclarations _ hentry)
  exact groupKept_recordEntry bare entry hcomplete hopened hheld

/-! ### Histories -/

/-- The redirects of a call, if it has any, do not name a property twice. -/
def Command.Distinct : Command → Prop
  | .register _ redirects _ => ∀ held, redirects = some held → Table.Distinct held
  | .clear => True

/-- What holds of nothing and is kept by every call that is accepted holds after any such calls. -/
theorem registered_induction (Told : Registry → List Registered → Prop) {Fine : Command → Prop}
    {commands : List Command} (hcommands : ∀ command ∈ commands, Fine command)
    (hempty : Told .empty [])
    (hregister : ∀ {registry next sofar batch redirects group},
      Fine (.register batch redirects group) → Told registry sofar →
        registry.register batch redirects group = .ok next →
          Told next (sofar ++ reactions batch redirects group)) :
    Told (after commands) (registered commands) := by
  have hfrom : ∀ {registry sofar}, Told registry sofar →
      Told (commands.foldl step registry) (registeredFrom registry sofar commands) := by
    induction commands with
    | nil => exact fun h => h
    | cons command rest ih =>
        intro registry sofar h
        obtain ⟨hfirst, hrest⟩ := List.forall_mem_cons.mp hcommands
        rw [List.foldl_cons]
        cases command with
        | clear => exact ih hrest hempty
        | register batch redirects group =>
            rw [step, registeredFrom]
            cases hnext : registry.register batch redirects group with
            | ok next => exact ih hrest (hregister hfirst h hnext)
            | error fault => exact ih hrest h
  exact hfrom hempty

theorem typeKept_after {commands : List Command} (h : ∀ command ∈ commands, command.Distinct)
    (type : String) : (after commands).TypeKept type (registered commands) :=
  registered_induction (fun registry sofar => registry.TypeKept type sofar) h
    ⟨by simp [empty, redirects?], by simp [empty, redirects?], by simp⟩
    fun hredirects hkept hregister => typeKept_register hkept hredirects hregister

theorem groupKept_after {commands : List Command} (h : ∀ command ∈ commands, command.Distinct)
    (group : String) : (after commands).GroupKept group (registered commands) :=
  registered_induction (fun registry sofar => registry.GroupKept group sofar) h
    ⟨by simp [empty], by simp, by simp [empty, groupCreator?]⟩
    fun hredirects hkept hregister => groupKept_register hkept hredirects hregister

/--
**One scope, one set of redirects.**  After any calls, whatever was accepted for an action
type of a group was accepted under the redirects of the group, and the registry keeps those
for the type.
-/
theorem agree_of_member {commands : List Command} (h : ∀ command ∈ commands, command.Distinct)
    {group name : String} {scope : Scope}
    (hscope : (after commands).scope (some group) = .ok scope)
    (hmember : ((after commands).groupCreator? group name).isSome = true) :
    Redirects.Agree ((after commands).redirects? (qualify (some group) name)) scope.redirects ∧
      ∀ reaction ∈ registered commands, reaction.type = qualify (some group) name →
        Redirects.Agree reaction.redirects scope.redirects := by
  obtain ⟨-, -, hsame⟩ := typeKept_after h (qualify (some group) name)
  obtain ⟨-, hagree, hmembers⟩ := groupKept_after h group
  obtain ⟨reaction, hreaction, htype, hgroup⟩ := hmembers name hmember
  obtain ⟨other, hother, hscoped⟩ := hagree reaction hreaction hgroup
  have hfound : other = scope := by
    rw [Registry.scope, hother] at hscope
    exact Except.ok.inj hscope
  rw [hfound] at hscoped
  have hkept := (hsame reaction hreaction htype).2.trans hscoped.symm
  refine ⟨hkept, fun held hheld hsametype => ?_⟩
  exact (hsame held hheld hsametype).2.symm.trans hkept

end Registry

end Reducer
