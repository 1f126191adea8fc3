/-
Names and the scopes that qualify them.

Creators, redirects and tries are kept by action type, and a type is a text: the bare name,
after its group and a dot if it has a group.  Two scopes can come to the same text.  A
reaction `left.inc` of the root has the type of `inc` in the group `left`, and so has
`b.c` in `a` that of `c` in `a.b`.

A registration writes into its own scope, and by type only where its batch declares a
reaction of the type.  So another scope keeps all it has, and its actions are created and
reduced as before, unless the batch declares one of its types: `sameFor_register`.  If it
does, the effects of both scopes add up under the type, and the creator is that of the
reaction that came last: `Owned`, which is carried along the history call by call.  No type
is shared where neither the groups nor the names of the root have a dot in them.
-/
import Mathlib.Data.List.TakeWhile
import Reducer.Proofs.Scopes

namespace Reducer

namespace Registry

/-! ### Types -/

theorem qualify_injective (group : Option String) : (qualify group).Injective := by
  intro name bare h
  cases group with
  | none => exact h
  | some group =>
      have hchars := congrArg String.toList h
      simp only [qualify, String.toList_append, List.append_right_inj] at hchars
      exact String.toList_injective hchars

theorem mem_toList_qualify (group name : String) : '.' ∈ (qualify (some group) name).toList := by
  simp [qualify]

/-- The group, or the name where there is none, is what a type has before its first dot. -/
theorem takeWhile_qualify {group : Option String} {name : String}
    (h : '.' ∉ (group.getD name).toList) :
    (qualify group name).toList.takeWhile (· ≠ '.') = (group.getD name).toList := by
  have hkept : ∀ letter ∈ (group.getD name).toList, decide (letter ≠ '.') = true := by
    intro letter hletter
    refine decide_eq_true ?_
    rintro rfl
    exact h hletter
  cases group with
  | none => exact List.takeWhile_eq_self_iff.mpr hkept
  | some group =>
      rw [Option.getD_some] at hkept ⊢
      rw [qualify, String.toList_append, String.toList_append, List.append_assoc,
        List.takeWhile_append_of_pos hkept]
      exact List.append_nil _

/-- A type tells its scope where no group, and no name of the root, has a dot in it. -/
theorem eq_of_qualify_eq {group other : Option String} {name bare : String}
    (hgroup : '.' ∉ (group.getD name).toList) (hother : '.' ∉ (other.getD bare).toList)
    (h : qualify group name = qualify other bare) : group = other := by
  have htext : group.getD name = other.getD bare := by
    refine String.toList_injective ?_
    rw [← takeWhile_qualify hgroup, h, takeWhile_qualify hother]
  cases group with
  | none =>
      cases other with
      | none => rfl
      | some other =>
          have hname : name = qualify (some other) bare := h
          exact absurd (hname ▸ mem_toList_qualify other bare) hgroup
  | some group =>
      cases other with
      | none =>
          have hbare : bare = qualify (some group) name := h.symm
          exact absurd (hbare ▸ mem_toList_qualify group name) hother
      | some other => exact congrArg some htext

/-- Where no group, and no name of the root, has a dot in it, no batch declares a foreign type. -/
theorem not_declares_of_undotted {group other : Option String} {name : String}
    {batch : List Declarations} (hne : group ≠ other) (hname : '.' ∉ (group.getD name).toList)
    (hbatch : ∀ declarations ∈ batch, ∀ entry ∈ declarations, '.' ∉ (other.getD entry.1).toList) :
    ¬Declares batch other (qualify group name) := by
  rintro ⟨declarations, hdeclarations, bare, reaction, hentry, htype⟩
  exact hne (eq_of_qualify_eq hname (hbatch declarations hdeclarations _ hentry) htype.symm)

/-! ### What a registration leaves alone -/

/-- Nothing that is kept for the type is different. -/
structure SameFor (registry next : Registry) (type : String) : Prop where
  creator : next.creator? type = registry.creator? type
  redirects : next.redirects? type = registry.redirects? type
  trie : next.trie? type = registry.trie? type

variable {registry between next : Registry} {group other : Option String} {type : String}

theorem SameFor.trans (h : registry.SameFor between type) (hnext : between.SameFor next type) :
    registry.SameFor next type :=
  ⟨hnext.creator.trans h.creator, hnext.redirects.trans h.redirects, hnext.trie.trans h.trie⟩

theorem SameFor.create_eq (h : registry.SameFor next type) (args : List Json) :
    next.create type args = registry.create type args := by
  rw [create, create, h.creator]

theorem SameFor.reduce_eq {action : Action} (h : registry.SameFor next action.type)
    (state : Node) : next.reduce state action = registry.reduce state action := by
  rw [reduce, reduce, h.trie, h.redirects]

theorem sameFor_updateScope (registry : Registry) (group : Option String)
    (change : Scope → Scope) (type : String) :
    registry.SameFor (registry.updateScope group change) type := by
  obtain ⟨hcreator, hredirects⟩ := updateScope_types registry group change type
  refine ⟨hcreator, hredirects, ?_⟩
  rw [trie?, tries_updateScope, trie?]

theorem sameFor_recordReaction {name : String} (hname : qualify group name ≠ type)
    (registry : Registry) (redirects : Option Redirects) (payload : PayloadOf)
    (effects : List SliceEffect) :
    registry.SameFor (registry.recordReaction redirects group name payload effects) type := by
  obtain ⟨hcreator, hredirects⟩ := recordReaction_types registry redirects group name payload
    effects type
  rw [if_neg hname] at hcreator hredirects
  refine ⟨hcreator, hredirects, ?_⟩
  simp only [trie?, recordReaction, tries_updateScope]
  split
  · rfl
  · rw [Table.update, Table.get?_set, if_neg hname]

theorem sameFor_recordEntry {name : String} {entry : Entry}
    (hname : ∀ reaction, entry = .reaction reaction → qualify group name ≠ type)
    (registry : Registry) (redirects : Option Redirects) :
    registry.SameFor (registry.recordEntry redirects group name entry) type := by
  unfold recordEntry
  split
  · exact sameFor_recordReaction (hname _ rfl) registry redirects _ _
  · exact ⟨rfl, rfl, rfl⟩
  · exact sameFor_updateScope registry group _ type
  · exact sameFor_updateScope registry group _ type

/-- A batch changes nothing that is kept for a type it does not declare. -/
theorem sameFor_register {batch : List Declarations} {redirects : Option Redirects}
    (hregister : registry.register batch redirects group = .ok next)
    (hdeclares : ¬Declares batch group type) : registry.SameFor next type := by
  refine register_keeps (registry.SameFor · type) hregister
    (sameFor_updateScope registry group _ type) ?_
  rintro declarations hdeclarations ⟨name, entry⟩ hentry - between hbetween
  refine hbetween.trans (sameFor_recordEntry ?_ between redirects)
  rintro reaction rfl htype
  exact hdeclares ⟨declarations, hdeclarations, name, reaction, hentry, htype⟩

/-! ### The creators of a scope -/

/-- The creator of a bare name in a scope. -/
def own? (registry : Registry) : Option String → String → Option Creator
  | none, name => Table.get? registry.root.creators name
  | some group, name => registry.groupCreator? group name

/-- A change of a scope is seen in that scope alone. -/
theorem own?_updateScope {change : Scope → Scope} {name : String}
    (write : Option Creator → Option Creator)
    (hchange : ∀ scope, Table.get? (change scope).creators name =
      write (Table.get? scope.creators name))
    (registry : Registry) (group other : Option String) :
    (registry.updateScope group change).own? other name =
      if group = other then write (registry.own? other name) else registry.own? other name := by
  cases group with
  | none =>
      cases other with
      | none => exact hchange registry.root
      | some other => rfl
  | some group =>
      cases other with
      | none => rfl
      | some other =>
          simp only [updateScope, own?, groupCreator?, Table.update, Table.get?_set,
            Option.some.injEq]
          split
          · rename_i hsame
            rw [Option.bind_some, hchange, hsame]
            cases Table.get? registry.groups other <;> rfl
          · rfl

/-- A change that leaves the creators of a scope alone is not seen at all. -/
theorem own?_updateScope_of_creators {change : Scope → Scope}
    (hchange : ∀ scope, (change scope).creators = scope.creators) (registry : Registry)
    (group other : Option String) (name : String) :
    (registry.updateScope group change).own? other name = registry.own? other name := by
  rw [own?_updateScope id fun scope => by rw [hchange, id]]
  exact ite_self _

theorem own?_recordReaction (registry : Registry) (redirects : Option Redirects)
    (group : Option String) (name : String) (payload : PayloadOf) (effects : List SliceEffect)
    (other : Option String) (bare : String) :
    (registry.recordReaction redirects group name payload effects).own? other bare =
      if group = other ∧ name = bare then some ⟨qualify group name, payload⟩
      else registry.own? other bare := by
  have hscope : (registry.recordReaction redirects group name payload effects).own? other bare =
      (registry.updateScope group fun scope =>
        { scope with creators := Table.set scope.creators name ⟨qualify group name, payload⟩ }).own?
          other bare := by
    cases group <;> cases other <;> rfl
  rw [hscope, own?_updateScope (fun held => if name = bare then some _ else held)
    fun scope => Table.get?_set scope.creators name _ bare, ite_and]

theorem own?_openScope (registry : Registry) (redirects : Option Redirects)
    (group other : Option String) (name : String) :
    (registry.openScope redirects group).own? other name = registry.own? other name := by
  refine own?_updateScope_of_creators (fun scope => ?_) registry group other name
  cases redirects <;> rfl

/-- A scope that is not registered into keeps its creators. -/
theorem own?_register {batch : List Declarations} {redirects : Option Redirects}
    (hregister : registry.register batch redirects group = .ok next) (hne : group ≠ other)
    (name : String) : next.own? other name = registry.own? other name := by
  refine register_keeps (fun next => next.own? other name = registry.own? other name) hregister
    (own?_openScope registry redirects group other name) ?_
  rintro - - ⟨bare, entry⟩ - - between hbetween
  refine Eq.trans ?_ hbetween
  unfold recordEntry
  split
  · rw [own?_recordReaction, if_neg fun hboth => hne hboth.1]
  · rfl
  · refine own?_updateScope_of_creators ?_ between group other name
    exact fun _ => rfl
  · refine own?_updateScope_of_creators ?_ between group other name
    exact fun _ => rfl

/-! ### The reaction that came last -/

/-- The last of the reactions of a type. -/
def lastOf (sofar : List Registered) (type : String) : Option Registered :=
  (sofar.filter (·.type = type)).getLast?

theorem lastOf_concat (sofar : List Registered) (reaction : Registered) (type : String) :
    lastOf (sofar ++ [reaction]) type =
      if reaction.type = type then some reaction else lastOf sofar type := by
  rw [lastOf, List.filter_append]
  split
  · rename_i htype
    rw [List.filter_cons_of_pos (by simpa using htype), List.filter_nil, List.getLast?_concat]
  · rename_i htype
    rw [List.filter_cons_of_neg (by simpa using htype), List.filter_nil, List.append_nil, lastOf]

theorem type_of_lastOf {sofar : List Registered} {reaction : Registered}
    (h : lastOf sofar type = some reaction) : reaction.type = type := by
  have hmem := List.mem_of_getLast? h
  simpa using (List.mem_filter.mp hmem).2

/--
Each creator of a scope builds actions of the type its name has there, and a type has the
creator of the reaction that came last.
-/
structure Owned (registry : Registry) (sofar : List Registered) : Prop where
  known : ∀ group name creator, registry.own? group name = some creator →
    creator.type = qualify group name ∧ (registry.creator? (qualify group name)).isSome = true
  last : ∀ type reaction, lastOf sofar type = some reaction →
    registry.own? reaction.group reaction.name = registry.creator? type

variable {sofar : List Registered}

theorem Owned.congr (h : registry.Owned sofar)
    (hown : ∀ group name, next.own? group name = registry.own? group name)
    (hcreator : ∀ type, next.creator? type = registry.creator? type) : next.Owned sofar := by
  obtain ⟨hknown, hlast⟩ := h
  constructor
  · intro group name creator hname
    rw [hown] at hname
    rw [hcreator]
    exact hknown group name creator hname
  · intro type reaction hreaction
    rw [hown, hcreator]
    exact hlast type reaction hreaction

theorem owned_recordReaction (h : registry.Owned sofar) (redirects : Option Redirects)
    (group : Option String) (name : String) (payload : PayloadOf) (effects : List SliceEffect) :
    (registry.recordReaction redirects group name payload effects).Owned
      (sofar ++ [⟨redirects, group, name, effects⟩]) := by
  have hcreator := fun type =>
    (recordReaction_types registry redirects group name payload effects type).1
  obtain ⟨hknown, hlast⟩ := h
  constructor
  · intro other bare creator hbare
    rw [own?_recordReaction] at hbare
    rw [hcreator]
    split at hbare
    · rename_i hsame
      cases hbare
      rw [← hsame.1, ← hsame.2, if_pos rfl]
      exact ⟨rfl, rfl⟩
    · obtain ⟨htype, hsome⟩ := hknown other bare creator hbare
      refine ⟨htype, ?_⟩
      split
      · rfl
      · exact hsome
  · intro type reaction hreaction
    rw [lastOf_concat, Registered.type] at hreaction
    rw [own?_recordReaction, hcreator]
    split at hreaction
    · rename_i htype
      cases hreaction
      exact (if_pos ⟨rfl, rfl⟩).trans (if_pos htype).symm
    · -- The same name of the same scope would have had the same type.
      rename_i htype
      have hother : ¬(group = reaction.group ∧ name = reaction.name) := by
        rintro ⟨hgroup, hname⟩
        refine htype (Eq.trans ?_ (type_of_lastOf hreaction))
        rw [Registered.type, hgroup, hname]
      exact (if_neg hother).trans ((hlast type reaction hreaction).trans (if_neg htype).symm)

theorem owned_recordEntry (h : registry.Owned sofar) (redirects : Option Redirects)
    (group : Option String) (name : String) (entry : Entry)
    (hcomplete : ∀ reaction, entry = .reaction reaction → Complete reaction) :
    (registry.recordEntry redirects group name entry).Owned
      (sofar ++ registeredBy redirects group (name, entry)) := by
  have hscope : ∀ change : Scope → Scope, (∀ scope, (change scope).creators = scope.creators) →
      (registry.updateScope group change).Owned (sofar ++ []) := by
    intro change hchange
    rw [List.append_nil]
    exact h.congr (fun other bare => own?_updateScope_of_creators hchange registry group other bare)
      fun type => (updateScope_types registry group change type).1
  cases entry with
  | reaction reaction =>
      obtain ⟨payload, hrecord⟩ := (hcomplete reaction rfl).recordEntry_eq registry redirects group
        name
      rw [hrecord]
      exact owned_recordReaction h redirects group name payload reaction.effects
  | selector selector =>
      exact hscope (fun scope =>
        { scope with selectors := Table.set scope.selectors name selector }) fun _ => rfl
  | thunk thunk =>
      exact hscope (fun scope => { scope with thunks := Table.set scope.thunks name thunk })
        fun _ => rfl

theorem owned_register (h : registry.Owned sofar) {batch : List Declarations}
    {redirects : Option Redirects}
    (hregister : registry.register batch redirects group = .ok next) :
    next.Owned (sofar ++ reactions batch redirects group) := by
  obtain ⟨_, hcheck, hrecord⟩ := bind_ok hregister
  obtain ⟨-, hentries⟩ := check_ok hcheck
  cases hrecord
  have hopened : (registry.openScope redirects group).Owned sofar :=
    h.congr (own?_openScope registry redirects group)
      fun type => (openScope_types registry redirects group type).1
  refine record_adds Owned hopened ?_
  rintro declarations hdeclarations ⟨name, entry⟩ hentry between entries hbetween
  have hcomplete := complete_of_checkEntry (hentries declarations hdeclarations _ hentry)
  exact owned_recordEntry hbetween redirects group name entry hcomplete

theorem owned_after (commands : List Command) : (after commands).Owned (registered commands) := by
  refine registered_induction (fun registry sofar => registry.Owned sofar)
    (fun _ _ => trivial) ⟨?_, ?_⟩ fun _ h hregister =>
      owned_register h hregister
  · intro group name creator hname
    cases group <;> cases hname
  · intro type reaction hreaction
    cases hreaction

/--
**A registration disturbs another scope only under a type it declares itself.**  The scope
keeps its creators and its actions can still be created; and unless the batch declares the
type, all that is created under it, and all that becomes of its actions, is as before.  What
is created is what the scope's own creator builds, if the reaction of the type that came
last came from the scope.
-/
theorem undisturbed {commands : List Command} {batch : List Declarations}
    {redirects : Option Redirects} (hne : group ≠ other)
    (hregister : (after commands).register batch redirects other = .ok next) {name : String}
    {creator : Creator} (hown : (after commands).own? group name = some creator) :
    next.own? group name = some creator ∧
    (∃ found : Creator, ∀ args,
      (after commands).create (qualify group name) args = .ok (found.create args)) ∧
    (¬Declares batch other (qualify group name) →
      ∀ args, next.create (qualify group name) args =
          (after commands).create (qualify group name) args ∧
        ∀ state, next.reduce state (creator.create args) =
          (after commands).reduce state (creator.create args)) ∧
    ((∃ reaction, lastOf (registered commands) (qualify group name) = some reaction ∧
        reaction.group = group) →
      ∀ args, (after commands).create (qualify group name) args = .ok (creator.create args)) := by
  obtain ⟨hknown, hlast⟩ := owned_after commands
  obtain ⟨htype, hsome⟩ := hknown group name creator hown
  refine ⟨?_, ?_, fun hdeclares args => ?_, ?_⟩
  · rw [own?_register hregister hne.symm, hown]
  · obtain ⟨found, hfound⟩ := Option.isSome_iff_exists.mp hsome
    refine ⟨found, fun args => ?_⟩
    rw [create, hfound]
  · have hsame := sameFor_register hregister hdeclares
    refine ⟨hsame.create_eq args, fun state => ?_⟩
    rw [← htype] at hsame
    exact hsame.reduce_eq state
  · rintro ⟨reaction, hreaction, hgroup⟩ args
    have hname : reaction.name = name := by
      refine qualify_injective group ?_
      rw [← type_of_lastOf hreaction, Registered.type, hgroup]
    have hcreator := hlast _ reaction hreaction
    rw [hgroup, hname, hown] at hcreator
    rw [create, ← hcreator]

/-! ### A dot in a name -/

/-- One reaction of this name, which drops a property; the payload of its actions is given. -/
def drops (name property : String) (payload : Json) : List Declarations :=
  [[(name, .reaction ⟨some fun _ => payload, [⟨[.key property], some .delete⟩]⟩)]]

/-- The group `left`, where `drop` drops `a`. -/
def leftGroup : List Command :=
  [.register (drops "drop" "a" .null) none (some "left")]

/-- Another `drop`, of the root, changes nothing for the `drop` of the group. -/
theorem undisturbed_by_root :
    ∃ next, (after leftGroup).register (drops "drop" "b" (.bool true)) none none = .ok next ∧
      next.create "left.drop" [] = .ok ⟨"left.drop", .null⟩ ∧
      ∀ state, next.reduce state ⟨"left.drop", .null⟩ =
        (after leftGroup).reduce state ⟨"left.drop", .null⟩ := by
  have hdeclares : ¬Declares (drops "drop" "b" (.bool true)) none (qualify (some "left") "drop") :=
    not_declares_of_undotted (by decide) (by decide) (by decide)
  have hown : (after leftGroup).own? (some "left") "drop" =
      some ⟨"left.drop", fun _ => .null⟩ := rfl
  have haccepted : ∃ next, (after leftGroup).register (drops "drop" "b" (.bool true)) none none =
      .ok next := ⟨_, rfl⟩
  obtain ⟨next, hregister⟩ := haccepted
  obtain ⟨-, -, hsame, hlast⟩ := undisturbed (by decide) hregister hown
  obtain ⟨hcreate, hreduce⟩ := hsame hdeclares []
  exact ⟨next, hregister, hcreate.trans (hlast ⟨_, rfl, rfl⟩ []), hreduce⟩

/-- But `left.drop` of the root has the type of `drop` in the group, and disturbs it. -/
theorem disturbed_by_dotted_root :
    ∃ next, (after leftGroup).register (drops "left.drop" "b" (.bool true)) none none = .ok next ∧
      (after leftGroup).create "left.drop" [] = .ok ⟨"left.drop", .null⟩ ∧
      next.create "left.drop" [] = .ok ⟨"left.drop", .bool true⟩ ∧
      next.own? (some "left") "drop" = some ⟨"left.drop", fun _ => .null⟩ ∧
      ((after leftGroup).reduce (.obj 0 [("b", .null)]) ⟨"left.drop", .null⟩).run 1 =
        .ok (.obj 1 [("b", .null)], 2) ∧
      (next.reduce (.obj 0 [("b", .null)]) ⟨"left.drop", .null⟩).run 1 = .ok (.obj 1 [], 2) :=
  ⟨_, rfl, rfl, rfl, rfl, rfl, rfl⟩

end Registry

end Reducer
