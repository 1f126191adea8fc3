/-
What a scope can do through a dispatcher.

Taking what a scope can do copies its tables, and so fixes which names there are and which
types their creators build: those the scope gives the names, all of them known to the
registry.  After that the registry plays no part.  A name that is invoked sends the action
of its creator, or else runs a thunk; and the thunk is given nothing to build actions with
but the creators of its own scope.

That a thunk uses nothing else is a property of the tree that it is, `Thunk.Own`.  Then every
action it dispatches is of the scope, whichever way it takes, and so is all that a store
puts on record while names of the scope are invoked.  The dispatches are written down
beside the store, in the order they come and with their outcomes, and the history grows
by those that were accepted.
-/
import Reducer.Proofs.Program
import Reducer.Proofs.Qualified
import Reducer.Proofs.Replay

namespace Reducer

open Build

/-! ### Writing down what is dispatched -/

namespace Dispatcher

variable {σ : Type}

/-- The dispatcher, with every action written down and how dispatching it ended. -/
def logged (dispatcher : Dispatcher σ) : Dispatcher (σ × List (Action × Outcome)) where
  dispatch action := fun (state, log) =>
    let (outcome, next) := dispatcher.dispatch action state
    (outcome, (next, log ++ [(action, outcome)]))
  state := fun (state, _) => dispatcher.state state

theorem watches_logged (dispatcher : Dispatcher σ) :
    dispatcher.logged.Watches dispatcher Prod.fst :=
  ⟨fun _ _ => rfl, fun _ => rfl⟩

end Dispatcher

/-- The actions that were accepted, in order. -/
def acceptedIn (log : List (Action × Outcome)) : List Action :=
  (log.filter (·.2.isOk)).map (·.1)

theorem acceptedIn_concat (log : List (Action × Outcome)) (action : Action) (outcome : Outcome) :
    acceptedIn (log ++ [(action, outcome)]) =
      acceptedIn log ++ if outcome.isOk then [action] else [] := by
  rw [acceptedIn, List.filter_append, List.map_append, acceptedIn]
  cases outcome <;> rfl

/-! ### Invoking -/

/-- One call of a name. -/
structure Invocation where
  /-- The props of the caller. -/
  props : Node
  /-- The name. -/
  name : String
  /-- The arguments. -/
  args : List Json

/-- What bound names make of a state, one call after the other, however each ends. -/
def Bound.invokeAll {σ : Type} (bound : Bound σ) (invocations : List Invocation) (state : σ) : σ :=
  invocations.foldl (fun state call => (bound.invoke call.props call.name call.args state).2) state

/-- A thunk that dispatches nothing but actions it has built by name, in its own scope. -/
def Thunk.Own (thunk : Thunk) : Prop :=
  ∀ context : ThunkContext, (thunk context).Sends fun action =>
    ∃ name args, context.action name args = .ok action

/-- What a thunk builds by name, the creator of the name has built. -/
theorem ThunkContext.action_ok {context : ThunkContext} {name : String} {args : List Json}
    {action : Action} (h : context.action name args = .ok action) :
    ∃ creator, Table.get? context.creators name = some creator ∧
      creator.create args = action := by
  unfold ThunkContext.action at h
  split at h
  · rename_i creator hcreator
    exact ⟨creator, hcreator, Except.ok.inj h⟩
  · cases h

namespace Bindings

variable {bindings : Bindings}

/-- An action that one of the creators builds. -/
def Builds (bindings : Bindings) (action : Action) : Prop :=
  ∃ name creator args, Table.get? bindings.creators name = some creator ∧
    creator.create args = action

/-- Where thunks build actions by name only, whatever is invoked does. -/
theorem sends_program (hthunks : ∀ name thunk, Table.get? bindings.thunks name = some thunk →
      thunk.Own) (props : Node) (name : String) (args : List Json) :
    (bindings.program props name args).Sends bindings.Builds := by
  unfold program
  split
  · rename_i creator hcreator
    exact Program.sends_send ⟨name, creator, args, hcreator, rfl⟩
  · split
    · rename_i thunk hthunk
      refine (hthunks name thunk hthunk _).mono ?_
      rintro action ⟨bare, given, haction⟩
      obtain ⟨creator, hcreator, hcreate⟩ := ThunkContext.action_ok haction
      exact ⟨bare, creator, given, hcreator, hcreate⟩
    · trivial

/-! ### What is put on record -/

/-- What is written down was built by the creators, and the accepted part of it is the history. -/
structure Recorded (bindings : Bindings) (store : Store)
    (running : (Store × Label) × List (Action × Outcome)) : Prop where
  history : running.1.1.history = store.history ++ acceptedIn running.2
  built : ∀ entry ∈ running.2, bindings.Builds entry.1

/-- **A dispatch adds to the history what is accepted.** -/
theorem Recorded.dispatch {store : Store} {running : (Store × Label) × List (Action × Outcome)}
    (h : bindings.Recorded store running) {action : Action} (haction : bindings.Builds action) :
    bindings.Recorded store (Store.dispatcher.logged.dispatch action running).2 := by
  obtain ⟨⟨current, label⟩, log⟩ := running
  obtain ⟨hhistory, hbuilt⟩ := h
  have hlogged : ∀ outcome, ∀ entry ∈ log ++ [(action, outcome)], bindings.Builds entry.1 :=
    fun outcome => List.forall_mem_append.mpr ⟨hbuilt, List.forall_mem_singleton.mpr haction⟩
  dsimp only [Dispatcher.logged, Store.dispatcher] at hhistory ⊢
  cases hrun : (current.apply action).run label with
  | error fault =>
      refine ⟨?_, hlogged _⟩
      show current.history = store.history ++ acceptedIn (log ++ [(action, .error fault)])
      rw [acceptedIn_concat, hhistory]
      exact (congrArg _ (List.append_nil _)).symm
  | ok result =>
      obtain ⟨⟨next, applied⟩, after⟩ := result
      obtain ⟨-, hnext⟩ := Ledger.apply_ok hrun
      refine ⟨?_, hlogged _⟩
      show next.history = store.history ++ acceptedIn (log ++ [(action, .ok ())])
      rw [acceptedIn_concat, hnext, ← List.append_assoc, ← hhistory]
      rfl

/-- Invoking names keeps the record, whatever is invoked and however it ends. -/
theorem recorded_invokeAll {store : Store}
    (hthunks : ∀ name thunk, Table.get? bindings.thunks name = some thunk → thunk.Own)
    (invocations : List Invocation) {running : (Store × Label) × List (Action × Outcome)}
    (h : bindings.Recorded store running) :
    bindings.Recorded store
      ((Bound.mk bindings Store.dispatcher.logged).invokeAll invocations running) := by
  induction invocations generalizing running with
  | nil => exact h
  | cons call rest ih =>
      refine ih (Program.run_keeps (sends_program hthunks call.props call.name call.args) ?_ h)
      exact fun action haction _ hstate => hstate.dispatch haction

/-- Writing down what is dispatched changes nothing else. -/
theorem invokeAll_logged {σ : Type} (bindings : Bindings) (dispatcher : Dispatcher σ)
    (invocations : List Invocation) (running : σ × List (Action × Outcome)) :
    ((Bound.mk bindings dispatcher.logged).invokeAll invocations running).1 =
      (Bound.mk bindings dispatcher).invokeAll invocations running.1 := by
  induction invocations generalizing running with
  | nil => rfl
  | cons call rest ih =>
      have hcall := Program.run_watches dispatcher.watches_logged
        (bindings.program call.props call.name call.args) running
      refine (ih _).trans ?_
      exact congrArg (fun ended => (Bound.mk bindings dispatcher).invokeAll rest ended.2) hcall.symm

/-! ### What invoking a name does -/

variable {σ : Type} (dispatcher : Dispatcher σ) (props : Node) (args : List Json) {name : String}

/-- Names bound to a dispatcher and to props. -/
def bind (bindings : Bindings) (dispatcher : Dispatcher σ) (props : Node) : BoundWithProps σ :=
  ⟨⟨bindings, dispatcher⟩, props⟩

theorem invoke_of_creator {creator : Creator}
    (h : Table.get? bindings.creators name = some creator) :
    (bindings.bind dispatcher props).invoke name args =
      dispatcher.dispatch (creator.create args) := by
  have hprogram : bindings.program props name args = .send (creator.create args) := by
    rw [program, h]
  exact (congrArg (Program.run dispatcher) hprogram).trans (Program.run_send dispatcher _)

theorem invoke_of_thunk {thunk : Thunk} (hcreator : Table.get? bindings.creators name = none)
    (h : Table.get? bindings.thunks name = some thunk) :
    (bindings.bind dispatcher props).invoke name args =
      (thunk ⟨props, bindings.creators, args⟩).run dispatcher := by
  have hprogram : bindings.program props name args = thunk ⟨props, bindings.creators, args⟩ := by
    rw [program, hcreator, h]
  exact congrArg (Program.run dispatcher) hprogram

theorem invoke_of_unknown (hcreator : Table.get? bindings.creators name = none)
    (h : Table.get? bindings.thunks name = none) :
    (bindings.bind dispatcher props).invoke name args = pure (.error (.unknownAction name)) := by
  have hprogram : bindings.program props name args = .fail (.unknownAction name) := by
    rw [program, hcreator, h]
  exact congrArg (Program.run dispatcher) hprogram

end Bindings

/-! ### The scopes of a registry -/

namespace Registry

variable {commands : List Command} {group : Option String} {scope : Scope}

theorem own?_of_scope {registry : Registry} (h : registry.scope group = .ok scope)
    (name : String) : registry.own? group name = Table.get? scope.creators name := by
  cases group with
  | none =>
      cases h
      rfl
  | some group =>
      rw [Registry.scope] at h
      split at h
      · rename_i held hheld
        cases h
        rw [own?, groupCreator?, hheld, Option.bind_some]
      · cases h

/-- An action of a scope: its type is that of a name of the scope, and is registered. -/
def ActionOf (registry : Registry) (group : Option String) (scope : Scope) (action : Action) :
    Prop :=
  ∃ name ∈ Table.keys scope.creators, action.type = qualify group name ∧
    action.type ∈ Table.keys registry.creators

/-- The creators of a scope build actions of the types their names have there. -/
theorem type_of_scope (h : (after commands).scope group = .ok scope) {name : String}
    {creator : Creator} (hcreator : Table.get? scope.creators name = some creator) :
    creator.type = qualify group name ∧ creator.type ∈ Table.keys (after commands).creators := by
  have hown : (after commands).own? group name = some creator :=
    (own?_of_scope h name).trans hcreator
  obtain ⟨htype, hknown⟩ := (owned_after commands).known group name creator hown
  refine ⟨htype, ?_⟩
  obtain ⟨found, hfound⟩ := Option.isSome_iff_exists.mp hknown
  rw [htype]
  exact List.mem_map.mpr ⟨_, Table.mem_of_get? hfound, rfl⟩

theorem actionOf_of_builds (h : (after commands).scope group = .ok scope) {action : Action}
    (haction : Bindings.Builds ⟨scope.creators, scope.thunks⟩ action) :
    (after commands).ActionOf group scope action := by
  obtain ⟨name, creator, args, hcreator, rfl⟩ := haction
  obtain ⟨htype, hknown⟩ := type_of_scope h hcreator
  exact ⟨name, List.mem_map.mpr ⟨_, Table.mem_of_get? hcreator, rfl⟩, htype, hknown⟩

/-- What was taken from a scope keeps to the scope. -/
structure Confined (registry : Registry) (group : Option String) (scope : Scope)
    (bindings : Bindings) : Prop where
  /-- The name of a creator dispatches one action, of the name's type, whether or not a thunk has
  it too. -/
  creator : ∀ {σ : Type} (dispatcher : Dispatcher σ) (props : Node) (name : String)
    (args : List Json) (creator : Creator), Table.get? scope.creators name = some creator →
    (bindings.bind dispatcher props).invoke name args =
      dispatcher.dispatch ⟨qualify group name, creator.payload args⟩
  /-- Any other name runs its thunk, with the props, the creators of the scope and the arguments. -/
  thunk : ∀ {σ : Type} (dispatcher : Dispatcher σ) (props : Node) (name : String)
    (args : List Json) (thunk : Thunk), Table.get? scope.creators name = none →
    Table.get? scope.thunks name = some thunk →
    (bindings.bind dispatcher props).invoke name args =
      (thunk ⟨props, scope.creators, args⟩).run dispatcher
  /-- A name that is neither fails, and dispatches nothing. -/
  unknown : ∀ {σ : Type} (dispatcher : Dispatcher σ) (props : Node) (name : String)
    (args : List Json), Table.get? scope.creators name = none →
    Table.get? scope.thunks name = none →
    (bindings.bind dispatcher props).invoke name args = pure (.error (.unknownAction name))
  /-- What a thunk builds by name has the type of the name, which is registered. -/
  action : ∀ (context : ThunkContext) (name : String) (args : List Json) (action : Action),
    context.creators = scope.creators → context.action name args = .ok action →
    action.type = qualify group name ∧ action.type ∈ Table.keys registry.creators
  /-- If thunks build all they dispatch, a store records nothing but actions of the scope. -/
  recorded : (∀ name thunk, Table.get? scope.thunks name = some thunk → thunk.Own) →
    ∀ (store : Store) (label : Label) (invocations : List Invocation), ∃ log,
      (Bound.mk bindings Store.dispatcher.logged).invokeAll invocations ((store, label), []) =
        ((Bound.mk bindings Store.dispatcher).invokeAll invocations (store, label), log) ∧
      ((Bound.mk bindings Store.dispatcher).invokeAll invocations (store, label)).1.history =
        store.history ++ acceptedIn log ∧
      ∀ entry ∈ log, registry.ActionOf group scope entry.1

/--
**Names that were taken from a scope keep to the scope.**  Whatever was registered before, a name
dispatches the one action of its creator, or runs its thunk, or fails; actions that a thunk
builds by name have types of the scope that were registered when the names were taken; and if
its thunks dispatch no others then, whatever is invoked and wherever it fails, the history of a
store grows by what was accepted, in order, all of it actions of the scope.
-/
theorem confined_of_scope (h : (after commands).scope group = .ok scope) :
    ∃ bindings, (after commands).bindings group = .ok bindings ∧
      (after commands).Confined group scope bindings := by
  have htaken : (after commands).bindings group = .ok ⟨scope.creators, scope.thunks⟩ := by
    rw [Registry.bindings, h]
    rfl
  refine ⟨_, htaken, ?_, ?_, ?_, ?_, ?_⟩
  · intro σ dispatcher props name args creator hcreator
    rw [Bindings.invoke_of_creator dispatcher props args hcreator, Creator.create,
      (type_of_scope h hcreator).1]
  · intro σ dispatcher props name args thunk hcreator hthunk
    exact Bindings.invoke_of_thunk dispatcher props args hcreator hthunk
  · intro σ dispatcher props name args hcreator hthunk
    exact Bindings.invoke_of_unknown dispatcher props args hcreator hthunk
  · intro context name args action hcontext haction
    obtain ⟨creator, hcreator, rfl⟩ := ThunkContext.action_ok haction
    rw [hcontext] at hcreator
    exact type_of_scope h hcreator
  · intro hthunks store label invocations
    have hstart : Bindings.Recorded ⟨scope.creators, scope.thunks⟩ store ((store, label), []) :=
      ⟨(List.append_nil _).symm, List.forall_mem_nil _⟩
    obtain ⟨hhistory, hbuilt⟩ := Bindings.recorded_invokeAll hthunks invocations hstart
    have hsame := Bindings.invokeAll_logged ⟨scope.creators, scope.thunks⟩ Store.dispatcher
      invocations ((store, label), [])
    rw [hsame] at hhistory
    refine ⟨_, Prod.ext hsame rfl, hhistory, fun entry hentry => ?_⟩
    exact actionOf_of_builds h (hbuilt entry hentry)

/-! ### A list with two ways to add to it -/

/-- Adds an item twice, and stops where that fails. -/
def twice : Thunk := fun context =>
  match context.action "add" context.args with
  | .ok action => .dispatch action fun
    | .ok _ => .send action
    | .error fault => .fail fault
  | .error fault => .fail fault

theorem own_twice : twice.Own := by
  intro context
  unfold twice
  split
  · rename_i action haction
    refine ⟨⟨"add", context.args, haction⟩, fun outcome => ?_⟩
    cases outcome with
    | ok => exact Program.sends_send ⟨"add", context.args, haction⟩
    | error fault => trivial
  · trivial

/-- A group with a reaction that adds an item, and the thunk. -/
def listGroup : List Command :=
  [.register [[("add", .reaction ⟨some fun args => args.headD .null,
      [⟨[.key "items"], some (.append fun action _ _ => .ofJson action.payload)⟩]⟩),
    ("twice", .thunk twice)]] none (some "list")]

/-- Three calls: of the creator, of the thunk, and of what is neither. -/
def listCalls : List Invocation :=
  [⟨.null, "add", [.str "x"]⟩, ⟨.null, "twice", [.str "y"]⟩, ⟨.null, "gone", []⟩]

/-- A store has on record what the group added, in order, and no more. -/
theorem confined_of_scope_listGroup :
    ∃ scope bindings, (after listGroup).scope (some "list") = .ok scope ∧
      (after listGroup).bindings (some "list") = .ok bindings ∧
      (after listGroup).Confined (some "list") scope bindings ∧
      (∀ name thunk, Table.get? scope.thunks name = some thunk → thunk.Own) ∧
      ((Bound.mk bindings Store.dispatcher).invokeAll listCalls
        (Store.ofState (after listGroup) (.obj 0 [("items", .null)]), 1)).1.history =
        [⟨"list.add", .str "x"⟩, ⟨"list.add", .str "y"⟩, ⟨"list.add", .str "y"⟩] := by
  have hscope : ∃ scope, (after listGroup).scope (some "list") = .ok scope ∧
      scope.thunks = [("twice", twice)] := ⟨_, rfl, rfl⟩
  obtain ⟨scope, hscope, hthunks⟩ := hscope
  obtain ⟨bindings, htaken, hconfined⟩ := confined_of_scope hscope
  refine ⟨scope, bindings, hscope, htaken, hconfined, fun name thunk hthunk => ?_, ?_⟩
  · rw [hthunks] at hthunk
    cases List.mem_singleton.mp (Table.mem_of_get? hthunk)
    exact own_twice
  · cases htaken
    rfl

end Registry

end Reducer
