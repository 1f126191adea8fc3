/-
A batch and its maps one by one.

A batch is checked as a whole before any of it is recorded, while maps that are registered one
after the other are each checked against what those before it have left: a group that may be
new, types that were not there.  It comes to the same.  What has passed the check has left its
own redirects with the group and with its types, so the next map of the call finds them equal
to those it comes with; for all other types nothing is different.  And a scope that is open
under the redirects of the call is not changed by being opened once more.

So a batch is its first part followed by its second, `register_append`, and by induction its
maps one by one.  The difference lies in what a refusal leaves behind: the batch nothing, the
maps those before the one that is refused.
-/
import Reducer.Proofs.Coherence
import Reducer.Proofs.Recording

namespace Reducer

namespace Registry

/-- Registers maps one after the other, until one is refused. -/
def registerEach (registry : Registry) (redirects : Option Redirects) (group : Option String) :
    List Declarations → Except Fault Registry
  | [] => .ok registry
  | declarations :: rest => do
      let next ← registry.register [declarations] redirects group
      next.registerEach redirects group rest

/-- The call that registers one map alone. -/
def alone (redirects : Option Redirects) (group : Option String) (declarations : Declarations) :
    Command :=
  .register [declarations] redirects group

variable {registry next : Registry} {redirects : Option Redirects} {group : Option String}
  {front back : List Declarations} {fault : Fault}

/-! ### The check after a part is recorded -/

/-- A group that was registered into has the redirects of the call. -/
theorem scope_redirects_of_writes {entries : List (String × Entry)} {name : String}
    (h : registry.Writes next redirects (some name) entries)
    (hcheck : registry.checkGroup redirects (some name) = .ok ()) :
    ∃ scope, Table.get? next.groups name = some scope ∧ scope.redirects = redirects := by
  refine ⟨_, scope_eq_ok.mp h.scope, ?_⟩
  show redirects.or (registry.held (some name)).redirects = redirects
  cases hscope : Table.get? registry.groups name with
  | none =>
      rw [held, Registry.scope, hscope]
      exact Option.or_none
  | some scope =>
      rw [held_of_scope (scope_eq_ok.mpr hscope)]
      exact or_eq_of_eqvOption (eqvOption_of_checkGroup hcheck hscope)

theorem checkGroup_of_register (hredirects : ∀ held, redirects = some held → held.Distinct)
    (hregister : registry.register front redirects group = .ok next) :
    next.checkGroup redirects group = .ok () := by
  obtain ⟨_, hcheck, hrecord⟩ := bind_ok hregister
  obtain ⟨hgroup, -⟩ := check_ok hcheck
  cases hrecord
  cases group with
  | none => rfl
  | some name =>
      obtain ⟨scope, hscope, hkept⟩ :=
        scope_redirects_of_writes (writes_record registry front redirects _) hgroup
      rw [checkGroup, hscope]
      dsimp only
      rw [hkept, if_pos (Redirects.eqvOption_refl hredirects)]

/-- What is left of a type passes or fails the check as before. -/
theorem checkRedirects_of_register (hfresh : registry.FreshTypes)
    (hredirects : ∀ held, redirects = some held → held.Distinct)
    (hregister : registry.register front redirects group = .ok next) (type : String) :
    next.checkRedirects redirects type = registry.checkRedirects redirects type := by
  by_cases hdeclares : Declares front group type
  · have hafter : next.checkRedirects redirects type = .ok () := by
      rw [checkRedirects, redirects?_of_declares hfresh hregister hdeclares,
        Redirects.eqvOption_refl hredirects, Bool.not_true, Bool.and_false]
      rfl
    have hbefore : registry.checkRedirects redirects type = .ok () := by
      obtain ⟨_, hcheck, -⟩ := bind_ok hregister
      obtain ⟨-, hentries⟩ := check_ok hcheck
      obtain ⟨declarations, hdeclarations, name, reaction, hmem, rfl⟩ := hdeclares
      have hknown := eqvOption_of_checkEntry (hentries declarations hdeclarations _ hmem)
      rw [checkRedirects]
      cases hcreator : (registry.creator? (qualify group name)).isSome with
      | false => rfl
      | true =>
          rw [hknown hcreator]
          rfl
    rw [hafter, hbefore]
  · obtain ⟨hcreator, hkept, -⟩ := sameFor_register hregister hdeclares
    rw [checkRedirects, checkRedirects, hcreator, hkept]

theorem checkEntry_of_register (hfresh : registry.FreshTypes)
    (hredirects : ∀ held, redirects = some held → held.Distinct)
    (hregister : registry.register front redirects group = .ok next) (name : String)
    (entry : Entry) :
    next.checkEntry redirects group name entry =
      registry.checkEntry redirects group name entry := by
  cases entry with
  | reaction reaction =>
      simp only [checkEntry, checkRedirects_of_register hfresh hredirects hregister]
  | _ => rfl

/-- What comes after a part that was let through is checked as if it came with it. -/
theorem check_append (hfresh : registry.FreshTypes)
    (hredirects : ∀ held, redirects = some held → held.Distinct)
    (hregister : registry.register front redirects group = .ok next) (back : List Declarations) :
    registry.check (front ++ back) redirects group = next.check back redirects group := by
  obtain ⟨_, hcheck, -⟩ := bind_ok hregister
  obtain ⟨_, hgroup, hfront⟩ := bind_ok hcheck
  rw [List.forM_eq_forM] at hfront
  rw [check, check, hgroup, checkGroup_of_register hredirects hregister, List.forM_eq_forM,
    List.forM_append, hfront]
  simp only [checkEntry_of_register hfresh hredirects hregister]
  rfl

/-- A batch whose first part is refused is refused, with the same fault. -/
theorem check_append_of_error (h : registry.check front redirects group = .error fault)
    (back : List Declarations) : registry.check (front ++ back) redirects group = .error fault := by
  unfold check at h ⊢
  cases hgroup : registry.checkGroup redirects group with
  | error first =>
      rw [hgroup] at h
      exact h
  | ok _ =>
      rw [hgroup, List.forM_eq_forM] at h
      rw [List.forM_eq_forM, List.forM_append]
      exact congrArg (fun checked => checked >>= fun _ => _) h

/-! ### Recording part after part -/

theorem updateScope_of_scope {scope : Scope} {change : Scope → Scope}
    (hscope : registry.scope group = .ok scope) (hsame : change scope = scope) :
    registry.updateScope group change = registry := by
  cases group with
  | none =>
      cases hscope
      rw [updateScope, hsame]
  | some name =>
      rw [scope_eq_ok] at hscope
      rw [updateScope, Table.update, hscope, Option.getD_some, hsame, Table.set_of_get? hscope]

/-- What was opened under the redirects of a call stays as it is when it is opened again. -/
theorem openScope_of_writes {entries : List (String × Entry)}
    (h : registry.Writes next redirects group entries) : next.openScope redirects group = next := by
  rw [openScope_eq]
  refine updateScope_of_scope h.scope ?_
  cases redirects <;> rfl

theorem record_append (registry : Registry) (front back : List Declarations)
    (redirects : Option Redirects) (group : Option String) :
    registry.record (front ++ back) redirects group =
      (registry.record front redirects group).record back redirects group := by
  have hopened := openScope_of_writes (writes_record registry front redirects group)
  rw [record, List.foldl_append, ← record]
  conv_rhs => rw [record, hopened]

/-- A batch is registered part by part. -/
theorem register_append (hfresh : registry.FreshTypes)
    (hredirects : ∀ held, redirects = some held → held.Distinct) (front back : List Declarations) :
    registry.register (front ++ back) redirects group =
      registry.register front redirects group >>= fun next =>
        next.register back redirects group := by
  cases hcheck : registry.check front redirects group with
  | error fault =>
      rw [register, register, hcheck, check_append_of_error hcheck]
      rfl
  | ok _ =>
      have hregister : registry.register front redirects group =
          .ok (registry.record front redirects group) := by
        rw [register, hcheck]
        rfl
      rw [hregister, register, check_append hfresh hredirects hregister, record_append]
      rfl

/-! ### One by one -/

/-- A batch that is not empty is its maps one by one. -/
theorem register_eq_registerEach {batch : List Declarations}
    (hredirects : ∀ held, redirects = some held → held.Distinct) (hbatch : batch ≠ [])
    (group : Option String) : ∀ {registry : Registry}, registry.FreshTypes →
      registry.register batch redirects group = registry.registerEach redirects group batch := by
  induction batch with
  | nil => exact absurd rfl hbatch
  | cons declarations rest ih =>
      intro registry hfresh
      rw [registerEach]
      cases rest with
      | nil => exact (bind_pure _).symm
      | cons other others =>
          rw [← List.singleton_append, register_append hfresh hredirects]
          cases hregister : registry.register [declarations] redirects group with
          | error fault => rfl
          | ok next => exact ih (List.cons_ne_nil _ _) (freshTypes_register hfresh hregister)

/-- Maps that are accepted one by one are so many calls. -/
theorem after_registerEach {commands : List Command} {batch : List Declarations}
    (h : (after commands).registerEach redirects group batch = .ok next) :
    after (commands ++ batch.map (alone redirects group)) = next := by
  induction batch generalizing commands with
  | nil =>
      rw [List.map_nil, List.append_nil]
      exact Except.ok.inj h
  | cons declarations rest ih =>
      obtain ⟨between, hregister, hrest⟩ := bind_ok h
      have hafter : after (commands ++ [alone redirects group declarations]) = between := by
        rw [after, List.foldl_append, ← after, List.foldl_cons, List.foldl_nil, alone, step,
          hregister]
      rw [List.map_cons, ← List.singleton_append, ← List.append_assoc]
      exact ih (hafter ▸ hrest)

/-- If not all maps are accepted one by one, there is a first that is refused. -/
theorem registerEach_error {batch : List Declarations}
    (h : registry.registerEach redirects group batch = .error fault) :
    ∃ front declarations rest reached, batch = front ++ declarations :: rest ∧
      registry.registerEach redirects group front = .ok reached ∧
      reached.register [declarations] redirects group = .error fault := by
  induction batch generalizing registry with
  | nil => cases h
  | cons declarations rest ih =>
      rw [registerEach] at h
      cases hregister : registry.register [declarations] redirects group with
      | error first =>
          rw [hregister] at h
          cases h
          exact ⟨[], declarations, rest, registry, rfl, rfl, hregister⟩
      | ok next =>
          rw [hregister] at h
          obtain ⟨front, refused, others, reached, rfl, hfront, hrefused⟩ := ih h
          refine ⟨declarations :: front, refused, others, reached, rfl, ?_, hrefused⟩
          rw [registerEach, hregister]
          exact hfront

/--
**A batch is its maps one by one, but for what a refusal leaves behind.**  After any calls,
refused ones included, a batch of at least one map is accepted just when its maps are, one
after the other, and the registry is the same.  Otherwise the batch is refused with the fault
of the first map that is, and leaves nothing, while the maps before that one stay.
-/
theorem register_piecemeal (commands : List Command) {batch : List Declarations}
    (hbatch : batch ≠ []) (hredirects : ∀ held, redirects = some held → held.Distinct)
    (group : Option String) :
    (after commands).register batch redirects group =
      (after commands).registerEach redirects group batch ∧
    (∀ next, (after commands).register batch redirects group = .ok next →
      after (commands ++ [.register batch redirects group]) = next ∧
        after (commands ++ batch.map (alone redirects group)) = next) ∧
    ∀ fault, (after commands).register batch redirects group = .error fault →
      after (commands ++ [.register batch redirects group]) = after commands ∧
        ∃ front declarations rest, batch = front ++ declarations :: rest ∧
          (after commands).registerEach redirects group front =
            .ok (after (commands ++ front.map (alone redirects group))) ∧
          (after (commands ++ front.map (alone redirects group))).register [declarations] redirects
            group = .error fault := by
  have heach := register_eq_registerEach hredirects hbatch group (freshTypes_after commands)
  have hafter : after (commands ++ [.register batch redirects group]) =
      (after commands).step (.register batch redirects group) := List.foldl_append
  refine ⟨heach, fun next hnext => ⟨?_, ?_⟩, fun fault hfault => ⟨?_, ?_⟩⟩
  · rw [hafter, step, hnext]
  · exact after_registerEach (heach ▸ hnext)
  · rw [hafter, step, hfault]
  · obtain ⟨front, declarations, rest, reached, hsplit, hfront, hrefused⟩ :=
      registerEach_error (heach ▸ hfault)
    have hreached := after_registerEach hfront
    exact ⟨front, declarations, rest, hsplit, hreached ▸ hfront, hreached ▸ hrefused⟩

/-- Two maps with a name in common, and one with a reaction that says nothing of its payload. -/
def threeMaps : List Declarations :=
  drops "drop" "list" .null ++ drops "drop" "box" (.bool true) ++ [[("lose", .reaction ⟨none, []⟩)]]

/-- Of three maps the first two are registered alike, and the third takes the batch with it. -/
theorem register_piecemeal_threeMaps :
    (∃ next,
      (after leftGroup).register (threeMaps.take 2) (some twoSent) (some "right") = .ok next ∧
      (after leftGroup).registerEach (some twoSent) (some "right") (threeMaps.take 2) = .ok next ∧
      next.create "right.drop" [] = .ok ⟨"right.drop", .bool true⟩) ∧
    (after leftGroup).register threeMaps (some twoSent) (some "right") =
      .error (.missingPayload "right.lose") ∧
    (after (leftGroup ++ [.register threeMaps (some twoSent) (some "right")])).create
      "right.drop" [] = .error (.unknownAction "right.drop") ∧
    (after (leftGroup ++ threeMaps.map (alone (some twoSent) (some "right")))).create
      "right.drop" [] = .ok ⟨"right.drop", .bool true⟩ := by
  have hsent : ∀ held, some twoSent = some held → Table.Distinct held := by
    simp [twoSent, Table.Distinct, Table.keys]
  have htwo : threeMaps.take 2 ≠ [] := List.cons_ne_nil _ _
  have hthree : threeMaps ≠ [] := List.cons_ne_nil _ _
  obtain ⟨hsame, -, -⟩ := register_piecemeal leftGroup htwo hsent (some "right")
  obtain ⟨-, -, hrefused⟩ := register_piecemeal leftGroup hthree hsent (some "right")
  obtain ⟨hunchanged, -⟩ := hrefused (.missingPayload "right.lose") rfl
  refine ⟨⟨_, rfl, hsame ▸ rfl, rfl⟩, rfl, ?_, rfl⟩
  rw [hunchanged]
  rfl

end Registry

end Reducer
