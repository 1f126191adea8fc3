/-
What registration refuses, and what it says then.

The check stops at the first fault it meets.  Here are all the faults of a batch: whatever is
wrong with its group, and then, entry by entry in the order they are declared, whatever is
wrong with a reaction, its payload first, then each of its effects, then the redirects of its
type.  The check does no more than to report the first of them, `check_eq_refuse`, whatever
else the batch holds and whatever is registered already.

A batch has no fault just when it is `Admissible`, and that is said without any order.  What
is admitted is recorded, every entry of it, and what is refused changes nothing:
`register_iff_admissible`.
-/
import Reducer.Proofs.Coherence
import Reducer.Proofs.Recording

namespace Reducer

namespace Redirects

/-! ### Agreement can be decided -/

theorem agree_some_iff {a b : Redirects} :
    Agree (some a) (some b) ↔
      ∀ name ∈ Table.keys a ++ Table.keys b, a.target? name = b.target? name := by
  rw [Agree, Option.map_some, Option.map_some, Option.some.injEq]
  refine ⟨fun h name _ => congrFun h name, fun h => funext fun name => ?_⟩
  by_cases hname : name ∈ Table.keys a ++ Table.keys b
  · exact h name hname
  · -- What neither names neither sends anywhere.
    rw [List.mem_append, not_or, ← Table.get?_eq_none_iff, ← Table.get?_eq_none_iff] at hname
    rw [target?, target?, hname.1, hname.2]

instance decidableAgree : (a b : Option Redirects) → Decidable (Agree a b)
  | none, none => .isTrue rfl
  | none, some _ => .isFalse fun h => nomatch h
  | some _, none => .isFalse fun h => nomatch h
  | some _, some _ => decidable_of_iff _ agree_some_iff.symm

end Redirects

namespace Registry

/-! ### The faults of a batch -/

instance decidableAdmits (registry : Registry) (type : String) (redirects : Option Redirects) :
    Decidable (registry.Admits type redirects) :=
  inferInstanceAs (Decidable (_ → _))

/-- A fault, if there is a reason for it. -/
def faultIf (reason : Prop) [Decidable reason] (fault : Fault) : List Fault :=
  if reason then [fault] else []

/-- What is wrong with an effect. -/
def effectFaults (type : String) (effect : SliceEffect) : List Fault :=
  faultIf (effect.slice.isEmpty = true) (.emptySlice type) ++
    faultIf (effect.effect.isNone = true) (.missingEffect type effect.slice.text)

/-- What is wrong with an entry. -/
def entryFaults (registry : Registry) (redirects : Option Redirects) (group : Option String) :
    String × Entry → List Fault
  | (name, .reaction reaction) =>
      faultIf (reaction.payload.isNone = true) (.missingPayload (qualify group name)) ++
        reaction.effects.flatMap (effectFaults (qualify group name)) ++
        faultIf (¬registry.Admits (qualify group name) redirects)
          (.redirectsConflict (qualify group name))
  | _ => []

/-- What is wrong with the group. -/
def groupFaults (registry : Registry) (redirects : Option Redirects) :
    Option String → List Fault
  | none => []
  | some group => match Table.get? registry.groups group with
    | some scope => faultIf (¬Redirects.Agree scope.redirects redirects) (.redirectsConflict group)
    | none => []

/-- All that is wrong with a batch, the group first, then every entry in order. -/
def faults (registry : Registry) (batch : List Declarations) (redirects : Option Redirects)
    (group : Option String) : List Fault :=
  registry.groupFaults redirects group ++
    batch.flatMap fun declarations => declarations.flatMap (registry.entryFaults redirects group)

/-- There is nothing wrong with a batch. -/
structure Admissible (registry : Registry) (batch : List Declarations)
    (redirects : Option Redirects) (group : Option String) : Prop where
  /-- The group, if there is one, is new or has the redirects of the call. -/
  scope : ∀ name scope, group = some name → registry.scope group = .ok scope →
    Redirects.Agree scope.redirects redirects
  /-- Each reaction has a payload, and its effects name a place and a change. -/
  complete : ∀ declarations ∈ batch, ∀ name reaction,
    (name, Entry.reaction reaction) ∈ declarations → Complete reaction
  /-- Each type that is declared is new or has the redirects of the call. -/
  types : ∀ type, Declares batch group type → registry.Admits type redirects

variable {registry next : Registry} {batch : List Declarations} {redirects : Option Redirects}
  {group : Option String}

/-! ### Nothing wrong -/

@[simp] theorem faultIf_eq_nil {reason : Prop} [Decidable reason] {fault : Fault} :
    faultIf reason fault = [] ↔ ¬reason := by
  simp [faultIf]

theorem effectFaults_eq_nil {type : String} {effect : SliceEffect} :
    effectFaults type effect = [] ↔ effect.slice ≠ [] ∧ effect.effect.isSome = true := by
  rw [effectFaults, List.append_eq_nil_iff, faultIf_eq_nil, faultIf_eq_nil]
  simp [Option.isSome_iff_ne_none]

theorem entryFaults_eq_nil {entry : String × Entry} :
    registry.entryFaults redirects group entry = [] ↔
      ∀ name reaction, entry = (name, .reaction reaction) →
        Complete reaction ∧ registry.Admits (qualify group name) redirects := by
  obtain ⟨name, entry⟩ := entry
  cases entry with
  | reaction reaction =>
      have hcomplete : Complete reaction ↔ ¬reaction.payload.isNone = true ∧
          ∀ declared ∈ reaction.effects, effectFaults (qualify group name) declared = [] := by
        simp only [effectFaults_eq_nil]
        constructor
        · rintro ⟨hpayload, heffects⟩
          exact ⟨by simpa [Option.isSome_iff_ne_none] using hpayload, heffects⟩
        · rintro ⟨hpayload, heffects⟩
          exact ⟨by simpa [Option.isSome_iff_ne_none] using hpayload, heffects⟩
      rw [entryFaults, List.append_eq_nil_iff, List.append_eq_nil_iff, List.flatMap_eq_nil_iff,
        faultIf_eq_nil, faultIf_eq_nil, not_not, ← hcomplete]
      constructor
      · rintro h _ _ ⟨⟩
        exact h
      · exact fun h => h name reaction rfl
  | _ => simp [entryFaults]

theorem groupFaults_eq_nil :
    registry.groupFaults redirects group = [] ↔
      ∀ name scope, group = some name → registry.scope group = .ok scope →
        Redirects.Agree scope.redirects redirects := by
  cases group with
  | none => simp [groupFaults]
  | some group =>
      simp only [scope_eq_ok, groupFaults]
      cases Table.get? registry.groups group with
      | none => simp
      | some scope => simp [faultIf]

/-- A batch that is admissible is one without faults. -/
theorem faults_eq_nil :
    registry.faults batch redirects group = [] ↔ registry.Admissible batch redirects group := by
  rw [faults, List.append_eq_nil_iff, groupFaults_eq_nil]
  simp only [List.flatMap_eq_nil_iff, entryFaults_eq_nil]
  constructor
  · rintro ⟨hscope, hentries⟩
    refine ⟨hscope, ?_, ?_⟩
    · intro declarations hdeclarations name reaction hmem
      exact (hentries declarations hdeclarations _ hmem name reaction rfl).1
    · rintro type ⟨declarations, hdeclarations, name, reaction, hmem, rfl⟩
      exact (hentries declarations hdeclarations _ hmem name reaction rfl).2
  · rintro ⟨hscope, hcomplete, htypes⟩
    refine ⟨hscope, ?_⟩
    rintro declarations hdeclarations _ hmem name reaction rfl
    exact ⟨hcomplete declarations hdeclarations name reaction hmem,
      htypes _ ⟨declarations, hdeclarations, name, reaction, hmem, rfl⟩⟩

/-! ### The first fault is reported -/

/-- The first fault is reported, if there is any. -/
def refuse : List Fault → Except Fault Unit
  | [] => .ok ()
  | fault :: _ => .error fault

theorem refuse_append (front back : List Fault) :
    refuse (front ++ back) = refuse front >>= fun _ => refuse back := by
  cases front <;> rfl

theorem refuse_flatMap {β : Type} (items : List β) (faultsOf : β → List Fault) :
    refuse (items.flatMap faultsOf) = items.forM fun item => refuse (faultsOf item) := by
  induction items with
  | nil => rfl
  | cons item rest ih =>
      rw [List.flatMap_cons, refuse_append, ih]
      rfl

theorem refuse_faultIf (reason : Prop) [Decidable reason] (fault : Fault) :
    refuse (faultIf reason fault) = if reason then .error fault else .ok () := by
  unfold faultIf
  split <;> rfl

theorem refuse_eq_ok {found : List Fault} : refuse found = .ok () ↔ found = [] := by
  cases found <;> simp [refuse]

theorem refuse_eq_error {found : List Fault} {fault : Fault} :
    refuse found = .error fault ↔ found.head? = some fault := by
  cases found <;> simp [refuse]

theorem checkEffect_eq (type : String) (effect : SliceEffect) :
    checkEffect type effect = refuse (effectFaults type effect) := by
  rw [effectFaults, refuse_append, refuse_faultIf, refuse_faultIf, checkEffect]
  split
  · rfl
  · rfl

theorem checkRedirects_eq {type : String}
    (hkept : ∀ held, registry.redirects? type = some held → held.Distinct)
    (hredirects : ∀ held, redirects = some held → held.Distinct) :
    registry.checkRedirects redirects type =
      refuse (faultIf (¬registry.Admits type redirects) (.redirectsConflict type)) := by
  have hadmits : registry.Admits type redirects ↔ ((registry.creator? type).isSome = true →
      Redirects.eqvOption (registry.redirects? type) redirects = true) := by
    rw [Redirects.eqvOption_iff_agree hkept hredirects, Admits]
  rw [refuse_faultIf, checkRedirects]
  simp only [hadmits]
  cases (registry.creator? type).isSome <;>
    cases Redirects.eqvOption (registry.redirects? type) redirects <;> rfl

theorem checkEntry_eq (hkept : ∀ type held, registry.redirects? type = some held → held.Distinct)
    (hredirects : ∀ held, redirects = some held → held.Distinct) (entry : String × Entry) :
    registry.checkEntry redirects group entry.1 entry.2 =
      refuse (registry.entryFaults redirects group entry) := by
  obtain ⟨name, entry⟩ := entry
  cases entry with
  | reaction reaction =>
      rw [entryFaults, refuse_append, refuse_append, refuse_flatMap, refuse_faultIf,
        ← checkRedirects_eq (hkept _) hredirects, ← funext (checkEffect_eq _)]
      dsimp only [checkEntry]
      split
      · rfl
      · rfl
  | _ => rfl

theorem checkGroup_eq (hkept : ∀ name scope held, Table.get? registry.groups name = some scope →
      scope.redirects = some held → held.Distinct)
    (hredirects : ∀ held, redirects = some held → held.Distinct) (group : Option String) :
    registry.checkGroup redirects group = refuse (registry.groupFaults redirects group) := by
  cases group with
  | none => rfl
  | some group =>
      rw [checkGroup, groupFaults]
      cases hscope : Table.get? registry.groups group with
      | none => rfl
      | some scope =>
          dsimp only
          rw [refuse_faultIf]
          simp only [Redirects.eqvOption_iff_agree (hkept group scope · hscope) hredirects, ite_not]

/-- The check reports the first of the faults. -/
theorem check_eq_refuse
    (htypes : ∀ type held, registry.redirects? type = some held → held.Distinct)
    (hgroups : ∀ name scope held, Table.get? registry.groups name = some scope →
      scope.redirects = some held → held.Distinct)
    (hredirects : ∀ held, redirects = some held → held.Distinct) (batch : List Declarations)
    (group : Option String) :
    registry.check batch redirects group = refuse (registry.faults batch redirects group) := by
  rw [faults, refuse_append, refuse_flatMap, check, checkGroup_eq hgroups hredirects]
  simp only [refuse_flatMap, checkEntry_eq htypes hredirects]

/-! ### Admitted or refused -/

variable {commands : List Command}

theorem register_eq_refuse (h : ∀ command ∈ commands, command.Distinct)
    (hredirects : ∀ held, redirects = some held → held.Distinct) (batch : List Declarations)
    (group : Option String) :
    (after commands).register batch redirects group =
      (fun _ => (after commands).record batch redirects group) <$>
        refuse ((after commands).faults batch redirects group) := by
  have hcheck := check_eq_refuse (fun type => (typeKept_after h type).distinct)
    (fun name => (groupKept_after h name).distinct) hredirects batch group
  rw [register, hcheck]
  cases refuse ((after commands).faults batch redirects group) <;> rfl

/--
**Registration is accepted just when it is well formed, and is all or nothing.**  After any
calls, refused ones included, a batch is accepted if it is admissible and only then.  If it is
not, the first of its faults is reported and nothing is changed.  If it is, then all of it is
recorded: none of its reactions and none of their effects is passed over.
-/
theorem register_iff_admissible (h : ∀ command ∈ commands, command.Distinct)
    (hredirects : ∀ held, redirects = some held → held.Distinct) (batch : List Declarations)
    (group : Option String) :
    ((∃ next, (after commands).register batch redirects group = .ok next) ↔
      (after commands).Admissible batch redirects group) ∧
    (∀ fault, (after commands).register batch redirects group = .error fault ↔
      ((after commands).faults batch redirects group).head? = some fault) ∧
    (∀ fault, (after commands).register batch redirects group = .error fault →
      (after commands).step (.register batch redirects group) = after commands) ∧
    ∀ next, (after commands).register batch redirects group = .ok next →
      (after commands).step (.register batch redirects group) = next ∧
        (after commands).Records next batch redirects group := by
  have hregister := register_eq_refuse h hredirects batch group
  refine ⟨?_, fun fault => ?_, fun fault hfault => ?_, fun next hnext => ⟨?_, ?_⟩⟩
  · rw [hregister, ← faults_eq_nil, ← refuse_eq_ok]
    cases refuse ((after commands).faults batch redirects group) <;> simp
  · rw [hregister, ← refuse_eq_error]
    cases refuse ((after commands).faults batch redirects group) <;> simp
  · rw [step, hfault]
  · rw [step, hnext]
  · exact records_of_register (freshTypes_after commands) hnext

/-- A selector, a reaction that says neither where nor what, and one without a payload. -/
def untidy : List Declarations :=
  [[("show", .selector fun view => .keep view),
    ("drop", .reaction ⟨some fun _ => .null, [⟨[.key "list"], some .delete⟩, ⟨[], none⟩]⟩)],
    [("lose", .reaction ⟨none, []⟩)]]

/-- A group is registered into once more, and refuses what is untidy. -/
theorem register_iff_admissible_twiceRegistered :
    (∃ next, (after twiceRegistered).register (drops "drop" "box" .null) (some twoSent)
        (some "left") = .ok next ∧
      (after twiceRegistered).Records next (drops "drop" "box" .null) (some twoSent)
        (some "left")) ∧
    (after twiceRegistered).faults untidy (some twoSent) (some "left") =
      [.emptySlice "left.drop", .missingEffect "left.drop" "", .missingPayload "left.lose"] ∧
    (after twiceRegistered).register untidy (some twoSent) (some "left") =
      .error (.emptySlice "left.drop") ∧
    (after twiceRegistered).register untidy none (some "left") =
      .error (.redirectsConflict "left") := by
  have hdistinct : ∀ command ∈ twiceRegistered, command.Distinct := by
    simp [twiceRegistered, twoSent, listOf, Command.Distinct, Table.Distinct, Table.keys]
  have hsent : ∀ held, some twoSent = some held → Table.Distinct held := by
    simp [twoSent, Table.Distinct, Table.keys]
  have hnone : ∀ held : Redirects, none = some held → Table.Distinct held := by
    intro held hheld
    cases hheld
  obtain ⟨-, -, -, hrecords⟩ := register_iff_admissible hdistinct hsent (drops "drop" "box" .null)
    (some "left")
  obtain ⟨-, hfirst, -⟩ := register_iff_admissible hdistinct hsent untidy (some "left")
  obtain ⟨-, hgroup, -⟩ := register_iff_admissible hdistinct hnone untidy (some "left")
  exact ⟨⟨_, rfl, (hrecords _ rfl).2⟩, rfl, (hfirst _).mpr rfl, (hgroup _).mpr rfl⟩

end Registry

end Reducer
