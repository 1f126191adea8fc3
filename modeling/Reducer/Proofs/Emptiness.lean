/-
What is left in an empty registry.

A registry is found empty when there is no creator, no group, and no name in the ungrouped
scope.  Everything else that is kept is kept by action type, and a type that has redirects or a
trie has a creator as well, so with the creators gone these are gone too.

One thing is neither a name nor kept by type: the redirects of the ungrouped scope.  Every
accepted call without a group leaves its redirects there, even one that declares nothing, and
the test does not look at them.  So an empty registry is a new one but for these redirects,
`after_eq_bare`, and whatever it is asked it answers like a new one, but for them and for the
view through them.
-/
import Reducer.Binding
import Reducer.Proofs.Recording
import Reducer.Proofs.Reduction

namespace Reducer

open Build

/-- A table in which nothing is found has no entry. -/
theorem Table.eq_nil_of_get? {α : Type} {table : Table α} (h : ∀ key, get? table key = none) :
    table = [] := by
  cases table with
  | nil => rfl
  | cons entry rest =>
      obtain ⟨key, value⟩ := entry
      have hfirst := h key
      rw [get?_cons, if_pos rfl] at hfirst
      cases hfirst

namespace Registry

variable {registry next : Registry} {batch : List Declarations} {redirects : Option Redirects}
  {group : Option String}

/-! ### Where there is no creator -/

/-- A type that has no creator has no trie. -/
def FreshTries (registry : Registry) : Prop :=
  ∀ type, registry.creator? type = none → registry.trie? type = none

theorem FreshTries.updateScope (h : registry.FreshTries) (group : Option String)
    (change : Scope → Scope) : (registry.updateScope group change).FreshTries := by
  intro type hnone
  have hsame := sameFor_updateScope registry group change type
  rw [hsame.creator] at hnone
  rw [hsame.trie]
  exact h type hnone

theorem FreshTries.recordEntry (h : registry.FreshTries) (redirects : Option Redirects)
    (group : Option String) (name : String) (entry : Entry) :
    (registry.recordEntry redirects group name entry).FreshTries := by
  unfold Registry.recordEntry
  split
  · rename_i payload effects
    intro type hnone
    obtain ⟨hcreator, -⟩ := recordReaction_types registry redirects group name payload effects type
    rw [hcreator] at hnone
    split at hnone
    · cases hnone
    · rename_i hname
      rw [(sameFor_recordReaction hname registry redirects payload effects).trie]
      exact h type hnone
  · exact h
  · exact h.updateScope group _
  · exact h.updateScope group _

theorem freshTries_after (commands : List Command) : (after commands).FreshTries := by
  have hany : ∀ command ∈ commands, (fun _ => True) command := fun _ _ => trivial
  refine registered_induction (fun registry _ => registry.FreshTries) hany (fun _ _ => rfl) ?_
  intro registry next _ batch redirects group _ h hregister
  exact register_keeps FreshTries hregister (h.updateScope group _)
    fun _ _ entry _ _ between hbetween => hbetween.recordEntry redirects group entry.1 entry.2

/-! ### The redirects of the ungrouped scope -/

/-- The redirects of the ungrouped scope after calls that begin at a registry with `sofar`. -/
def rootRedirectsFrom (registry : Registry) (sofar : Option Redirects) :
    List Command → Option Redirects
  | [] => sofar
  | .clear :: rest => rootRedirectsFrom .empty none rest
  | .register batch redirects group :: rest =>
      match registry.register batch redirects group with
      | .ok next => rootRedirectsFrom next (if group = none then redirects.or sofar else sofar) rest
      | .error _ => rootRedirectsFrom registry sofar rest

/-- The last redirects that came with an accepted call without a group, since the last clear. -/
def rootRedirects (commands : List Command) : Option Redirects :=
  rootRedirectsFrom .empty none commands

/-- A call without a group leaves its redirects in the ungrouped scope, if it has any. -/
theorem root_redirects_register (hregister : registry.register batch redirects group = .ok next) :
    next.root.redirects =
      if group = none then redirects.or registry.root.redirects else registry.root.redirects := by
  obtain ⟨_, -, hrecord⟩ := bind_ok hregister
  cases hrecord
  have hwrites := writes_record registry batch redirects group
  cases group with
  | none =>
      rw [if_pos rfl, Except.ok.inj hwrites.scope]
      rfl
  | some group =>
      have hkept := hwrites.others none (Option.some_ne_none group)
      rw [if_neg (Option.some_ne_none group)]
      exact congrArg Scope.redirects (Except.ok.inj hkept)

theorem root_redirects_after (commands : List Command) :
    (after commands).root.redirects = rootRedirects commands := by
  have hfrom : ∀ {registry : Registry} {sofar : Option Redirects}, registry.root.redirects = sofar →
      (commands.foldl step registry).root.redirects =
        rootRedirectsFrom registry sofar commands := by
    induction commands with
    | nil => exact fun h => h
    | cons command rest ih =>
        intro registry sofar h
        rw [List.foldl_cons]
        cases command with
        | clear => exact ih rfl
        | register batch redirects group =>
            rw [step, rootRedirectsFrom]
            cases hnext : registry.register batch redirects group with
            | ok next => exact ih (by rw [root_redirects_register hnext, h])
            | error fault => exact ih h
  exact hfrom rfl

/-! ### What an empty registry holds -/

/-- Nothing but redirects of the ungrouped scope. -/
def bare (redirects : Option Redirects) : Registry :=
  { empty with root := { Scope.empty with redirects } }

/-- **An empty registry holds nothing but the redirects of the ungrouped scope.** -/
theorem after_eq_bare {commands : List Command} (h : (after commands).isEmpty = true) :
    after commands = bare (rootRedirects commands) := by
  have hroot := root_redirects_after commands
  have hredirects := freshTypes_after commands
  have htries := freshTries_after commands
  generalize after commands = registry at *
  obtain ⟨creators, ⟨own, thunks, selectors, held⟩, groups, redirects, tries⟩ := registry
  simp only [isEmpty, Scope.isEmpty, Bool.and_eq_true, List.isEmpty_iff] at h
  obtain ⟨⟨rfl, ⟨rfl, rfl⟩, rfl⟩, rfl⟩ := h
  obtain rfl : redirects = [] := Table.eq_nil_of_get? fun type => hredirects type rfl
  obtain rfl : tries = [] := Table.eq_nil_of_get? fun type => htries type rfl
  obtain rfl : held = rootRedirects commands := hroot
  rfl

/-! ### What an empty registry answers -/

/-- Asked about action types, groups and names, two registries answer alike. -/
structure AnswersLike (registry other : Registry) : Prop where
  reduce : ∀ state action, registry.reduce state action = other.reduce state action
  creators : registry.creators = other.creators
  create : ∀ type args, registry.create type args = other.create type args
  trie : ∀ type, registry.trie? type = other.trie? type
  redirects : ∀ type, registry.redirects? type = other.redirects? type
  groups : Table.keys registry.groups = Table.keys other.groups
  group : ∀ name, registry.scope (some name) = other.scope (some name)
  groupView : ∀ state name, registry.groupView state (some name) = other.groupView state (some name)
  groupCreator : ∀ group name, registry.groupCreator? group name = other.groupCreator? group name
  bindings : ∀ group, registry.bindings group = other.bindings group
  /-- The same values are selected; a view that is built for it uses up a label. -/
  select : ∀ state group label, ((registry.select state group).run label).map (·.1) =
    ((other.select state group).run label).map (·.1)

/-- Redirects of the ungrouped scope are seen in that scope alone, and no selector is there. -/
theorem answersLike_bare (redirects : Option Redirects) : (bare redirects).AnswersLike .empty := by
  refine ⟨fun _ _ => rfl, rfl, fun _ _ => rfl, fun _ => rfl, fun _ => rfl, rfl, fun _ => rfl,
    fun _ _ => rfl, fun _ _ => rfl, ?_, ?_⟩
  · intro group
    cases group <;> rfl
  · intro state group label
    cases group with
    | some name => rfl
    | none =>
        obtain ⟨built, after, hview, -⟩ := Redirects.view_run redirects Action.empty state label
        show ((Redirects.view redirects Action.empty state >>= fun view =>
          evalSelectors view []).run label).map (·.1) = .ok []
        rw [run_bind, hview]
        rfl

/--
**An empty registry is a new one, but for the redirects of the ungrouped scope.**  Whatever calls
it was reached by, an empty registry answers every question about actions, types, groups and
names like a new one.  Its ungrouped scope has no names either, but it has the redirects that
an accepted call without a group left there last, and its view goes through them; the registry
is a new one just if no such call had redirects since everything was last forgotten.
-/
theorem answers_of_isEmpty {commands : List Command} (h : (after commands).isEmpty = true) :
    (after commands).AnswersLike .empty ∧
    (after commands).scope none = .ok { Scope.empty with redirects := rootRedirects commands } ∧
    (∀ state, (after commands).groupView state none =
      Redirects.view (rootRedirects commands) Action.empty state) ∧
    (after commands = .empty ↔ rootRedirects commands = none) := by
  rw [after_eq_bare h]
  refine ⟨answersLike_bare _, rfl, fun _ => rfl, fun hempty => ?_, fun hnone => ?_⟩
  · exact congrArg (fun registry => registry.root.redirects) hempty
  · rw [hnone]
    rfl

/-- A group that is forgotten again, and then redirects for the ungrouped scope with no names. -/
def sentOnly : List Command :=
  [.register (drops "drop" "list" .null) none (some "left"), .clear,
    .register [] (some [("list", [.key "box"])]) none]

/-- A state with a list that is shut and a box that is open. -/
def listAndBox : Node :=
  .obj 0 [("list", .bool false), ("box", .bool true)]

/-- Nothing of the group is left, but the list is seen to be the box. -/
theorem answers_of_isEmpty_sentOnly :
    (after sentOnly).isEmpty = true ∧ (after sentOnly).AnswersLike .empty ∧
    ((after sentOnly).groupView listAndBox none).run 1 =
      .ok (.obj 1 [("list", .bool true), ("box", .bool true)], 2) ∧
    after sentOnly ≠ .empty := by
  have hempty : (after sentOnly).isEmpty = true := rfl
  obtain ⟨hlike, -, hview, hnew⟩ := answers_of_isEmpty hempty
  refine ⟨hempty, hlike, ?_, fun h => ?_⟩
  · rw [hview]
    rfl
  · cases hnew.mp h

/-- An empty registry may show a state otherwise than a new one does. -/
theorem view_of_isEmpty_ne :
    ¬∀ commands, (after commands).isEmpty = true → ∀ state group label,
      ((after commands).groupView state group).run label =
        (Registry.empty.groupView state group).run label := by
  intro h
  have hshut : Except.ok (Node.obj 1 [("list", .bool true), ("box", .bool true)], 2) =
      (Except.ok (listAndBox, 1) : Except Fault (Node × Label)) :=
    h sentOnly rfl listAndBox none 1
  cases hshut

end Registry

end Reducer
