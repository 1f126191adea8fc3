/-
What a store's history is good for.

A store keeps a base, a history and a state, and six operations write them, some of which
fail midway.  To say what the history should be, a `Ledger` runs beside the store and
writes down every action when it is accepted, together with the state it left; pruning and
clearing forget entries, and nothing else does.  Apart from what it writes down a ledger
is the store it runs beside, `running_after`.

One invariant carries everything: from the base, the actions of the ledger lead through
states of the content written down to a state of the content of the present one.  It is
called `Follows`, and it does not depend on labels, so it survives that pruning reduces
the oldest actions again to find the new base.  A thunk can do nothing but dispatch, one
action after the other, so it preserves what dispatching preserves, however it ends.
-/
import Reducer.Binding
import Reducer.Proofs.Agreement
import Reducer.Proofs.Program
import Reducer.Store

namespace Reducer

open Build

/-! ### From state to state -/

namespace Registry

variable {registry : Registry}

/-- The action leads from every state of one content to a state of another, at any labels. -/
def Leads (registry : Registry) (action : Action) (state next : Node) : Prop :=
  ∀ tree label, state.Akin tree → ∃ made after,
    (registry.reduce tree action).run label = .ok (made, after) ∧ next.Akin made

/-- The actions lead from the base through the states beside them to the present one. -/
def Follows (registry : Registry) : Node → List (Action × Node) → Node → Prop
  | base, [], state => base.Akin state
  | base, (action, next) :: rest, state => registry.Leads action base next ∧
      Follows registry next rest state

theorem leads_of_reduce (hreads : registry.ReadsContent) {state next : Node} {action : Action}
    {label after : Label} (h : (registry.reduce state action).run label = .ok (next, after)) :
    registry.Leads action state next := by
  intro tree later hakin
  have hrel := (agree_reduce hreads action hakin).rel label later
  rw [result_eq_some.mpr h] at hrel
  generalize hmade : result (registry.reduce tree action) later = other at hrel
  cases hrel with
  | @some _ pair hsame =>
      obtain ⟨made, ending⟩ := pair
      exact ⟨made, ending, result_eq_some.mp hmade, hsame⟩

theorem Follows.of_akin {base other state : Node} {kept : List (Action × Node)}
    (h : registry.Follows base kept state) (hbase : base.Akin other) :
    registry.Follows other kept state := by
  cases kept with
  | nil => exact Node.akin_trans (Node.akin_symm hbase) h
  | cons entry rest =>
      obtain ⟨hleads, hrest⟩ := h
      exact ⟨fun tree label htree => hleads tree label (Node.akin_trans hbase htree), hrest⟩

/-- What is followed in one go is followed in two, with a state between them. -/
theorem follows_append_iff {base state : Node} {front back : List (Action × Node)} :
    registry.Follows base (front ++ back) state ↔
      ∃ between, registry.Follows base front between ∧ registry.Follows between back state := by
  induction front generalizing base with
  | nil =>
      constructor
      · intro h
        exact ⟨base, Node.akin_refl base, h⟩
      · rintro ⟨between, hbase, h⟩
        exact h.of_akin (Node.akin_symm hbase)
  | cons entry rest ih =>
      constructor
      · rintro ⟨hleads, hrest⟩
        obtain ⟨between, hfront, hback⟩ := ih.mp hrest
        exact ⟨between, ⟨hleads, hfront⟩, hback⟩
      · rintro ⟨between, ⟨hleads, hfront⟩, hback⟩
        exact ⟨hleads, ih.mpr ⟨between, hfront, hback⟩⟩

/-- **Reducing the actions again ends in a state of the content they ended in.** -/
theorem reduceAll_of_follows {base state : Node} {kept : List (Action × Node)}
    (h : registry.Follows base kept state) (label : Label) :
    ∃ made after, (registry.reduceAll base (kept.map (·.1))).run label = .ok (made, after) ∧
      state.Akin made := by
  induction kept generalizing base label with
  | nil => exact ⟨base, label, rfl, Node.akin_symm h⟩
  | cons entry rest ih =>
      obtain ⟨hleads, hrest⟩ := h
      obtain ⟨next, between, hnext, hakin⟩ := hleads base label (Node.akin_refl base)
      obtain ⟨made, after, hmade, hstate⟩ := ih (hrest.of_akin hakin) between
      exact ⟨made, after, run_bind_ok.mpr ⟨next, between, hnext, hmade⟩, hstate⟩

/-- The actions of a batch, each with the state it left. -/
def trail (registry : Registry) : Node → List Action → Label → List (Action × Node)
  | _, [], _ => []
  | state, action :: rest, label =>
      match (registry.reduce state action).run label with
      | .ok (next, after) => (action, next) :: trail registry next rest after
      | .error _ => []

theorem follows_trail (hreads : registry.ReadsContent) {state last : Node} {actions : List Action}
    {label after : Label} (h : (registry.reduceAll state actions).run label = .ok (last, after)) :
    (registry.trail state actions label).map (·.1) = actions ∧
      registry.Follows state (registry.trail state actions label) last := by
  induction actions generalizing state label with
  | nil =>
      cases h
      exact ⟨rfl, Node.akin_refl _⟩
  | cons action rest ih =>
      obtain ⟨next, between, hnext, hrest⟩ := run_bind_ok.mp h
      obtain ⟨hactions, hfollows⟩ := ih hrest
      rw [trail, hnext]
      exact ⟨congrArg (action :: ·) hactions, leads_of_reduce hreads hnext, hfollows⟩

end Registry

/-! ### Operations -/

namespace Store

/-- What can be done to a store. -/
inductive Operation
  /-- Applies one action. -/
  | apply (action : Action)
  /-- Builds an action by its type and applies it. -/
  | applyNamed (type : String) (args : List Json)
  /-- Applies several actions, all of them or none. -/
  | applyBatch (actions : List Action)
  /-- Invokes a name that is bound to the store: a creator's action, or a thunk. -/
  | invoke (bindings : Bindings) (props : Node) (name : String) (args : List Json)
  /-- Folds all but the last actions into the base. -/
  | prune (keep : Nat)
  /-- Forgets the history. -/
  | clearHistory

/-- The store after some work on it; work that fails leaves it as it was. -/
def commit {α : Type} (running : Store × Label) (work : Build (Store × α)) : Store × Label :=
  match work.run running.2 with
  | .ok ((store, _), next) => (store, next)
  | .error _ => running

/-- The store after an operation. -/
def perform (running : Store × Label) : Operation → Store × Label
  | .apply action => commit running (running.1.apply action)
  | .applyNamed type args => commit running (running.1.applyNamed type args)
  | .applyBatch actions => commit running (running.1.applyBatch actions)
  | .invoke bindings props name args =>
      ((Bound.mk bindings dispatcher).invoke props name args running).2
  | .prune keep => commit running (running.1.prune keep)
  | .clearHistory => (running.1.clearHistory, running.2)

end Store

/-! ### The ledger -/

/-- A store, the label that comes next, and what the history should be. -/
structure Ledger where
  /-- The store. -/
  store : Store
  /-- The label that comes next. -/
  next : Label
  /-- Every action accepted and not forgotten since, with the state right after it. -/
  kept : List (Action × Node)

namespace Ledger

/-- What is not the ledger's own. -/
def running (ledger : Ledger) : Store × Label :=
  (ledger.store, ledger.next)

/-- A store with no history, and nothing accepted. -/
def start (registry : Registry) (state : Node) (next : Label) : Ledger :=
  ⟨Store.ofState registry state, next, []⟩

/-- Dispatching to the store; an action that is accepted is written down. -/
def dispatcher : Dispatcher Ledger where
  dispatch action := fun ledger =>
    match (ledger.store.apply action).run ledger.next with
    | .ok ((store, _), next) => (.ok (), ⟨store, next, ledger.kept ++ [(action, store.state)]⟩)
    | .error fault => (.error fault, ledger)
  state ledger := ledger.store.state

/-- The ledger after an operation. -/
def perform (ledger : Ledger) : Store.Operation → Ledger
  | .apply action => (dispatcher.dispatch action ledger).2
  | .applyNamed type args =>
      match ledger.store.registry.create type args with
      | .ok action => (dispatcher.dispatch action ledger).2
      | .error _ => ledger
  | .applyBatch actions =>
      match (ledger.store.applyBatch actions).run ledger.next with
      | .ok ((store, _), next) =>
          ⟨store, next, ledger.kept ++
            ledger.store.registry.trail ledger.store.state actions ledger.next⟩
      | .error _ => ledger
  | .invoke bindings props name args =>
      ((Bound.mk bindings dispatcher).invoke props name args ledger).2
  | .prune keep =>
      match (ledger.store.prune keep).run ledger.next with
      | .ok ((store, _), next) => ⟨store, next, ledger.kept.drop (ledger.kept.length - keep)⟩
      | .error _ => ledger
  | .clearHistory => ⟨ledger.store.clearHistory, ledger.next, []⟩

/-! ### A ledger is the store it runs beside -/

theorem running_dispatch (action : Action) (ledger : Ledger) :
    Store.dispatcher.dispatch action ledger.running =
      ((dispatcher.dispatch action ledger).1, (dispatcher.dispatch action ledger).2.running) := by
  dsimp only [dispatcher, Store.dispatcher, running]
  cases (ledger.store.apply action).run ledger.next <;> rfl

theorem running_program (program : Program) (ledger : Ledger) :
    program.run Store.dispatcher ledger.running =
      ((program.run dispatcher ledger).1, (program.run dispatcher ledger).2.running) :=
  Program.run_watches ⟨running_dispatch, fun _ => rfl⟩ program ledger

theorem running_apply (action : Action) (ledger : Ledger) :
    Store.commit ledger.running (ledger.store.apply action) =
      (dispatcher.dispatch action ledger).2.running := by
  dsimp only [Store.commit, running, dispatcher]
  cases (ledger.store.apply action).run ledger.next <;> rfl

theorem running_perform (ledger : Ledger) (operation : Store.Operation) :
    Store.perform ledger.running operation = (ledger.perform operation).running := by
  cases operation with
  | apply action => exact running_apply action ledger
  | applyNamed type args =>
      rw [Store.perform, perform]
      have hnamed : Store.commit ledger.running (ledger.store.applyNamed type args) =
          match ledger.store.registry.create type args with
          | .ok action => Store.commit ledger.running (ledger.store.apply action)
          | .error _ => ledger.running := by
        unfold Store.commit Store.applyNamed
        rw [run_bind]
        cases ledger.store.registry.create type args <;> rfl
      refine hnamed.trans ?_
      cases ledger.store.registry.create type args with
      | ok action => exact running_apply action ledger
      | error fault => rfl
  | applyBatch actions =>
      dsimp only [Store.perform, Store.commit, perform, running]
      cases (ledger.store.applyBatch actions).run ledger.next <;> rfl
  | invoke bindings props name args =>
      exact congrArg Prod.snd (running_program (bindings.program props name args) ledger)
  | prune keep =>
      dsimp only [Store.perform, Store.commit, perform, running]
      cases (ledger.store.prune keep).run ledger.next <;> rfl
  | clearHistory => rfl

theorem running_after (operations : List Store.Operation) (ledger : Ledger) :
    operations.foldl Store.perform ledger.running = (operations.foldl perform ledger).running := by
  induction operations generalizing ledger with
  | nil => rfl
  | cons operation rest ih =>
      rw [List.foldl_cons, List.foldl_cons, running_perform]
      exact ih (ledger.perform operation)

/-! ### The invariant -/

/-- The ledger's entries are the history, and lead from the base to the state. -/
structure Sound (registry : Registry) (ledger : Ledger) : Prop where
  registry_eq : ledger.store.registry = registry
  history : ledger.store.history = ledger.kept.map (·.1)
  follows : registry.Follows ledger.store.base ledger.kept ledger.store.state

variable {registry : Registry} {ledger : Ledger}

theorem sound_start (registry : Registry) (state : Node) (next : Label) :
    (start registry state next).Sound registry :=
  ⟨rfl, rfl, Node.akin_refl state⟩

/-- What an action that is accepted changes. -/
theorem apply_ok {store next : Store} {applied : Applied} {action : Action} {label after : Label}
    (h : (store.apply action).run label = .ok ((next, applied), after)) :
    (store.registry.reduce store.state action).run label = .ok (next.state, after) ∧
      next = { store with state := next.state, history := store.history ++ [action] } := by
  obtain ⟨state, between, hstate, h⟩ := run_bind_ok.mp h
  cases h
  exact ⟨hstate, rfl⟩

/-- **Dispatching an action preserves the invariant.** -/
theorem Sound.dispatch (hreads : registry.ReadsContent) (h : ledger.Sound registry)
    (action : Action) : (dispatcher.dispatch action ledger).2.Sound registry := by
  dsimp only [dispatcher]
  cases hrun : (ledger.store.apply action).run ledger.next with
  | error fault => exact h
  | ok result =>
      obtain ⟨⟨store, applied⟩, next⟩ := result
      obtain ⟨hreduce, hstore⟩ := apply_ok hrun
      rw [h.registry_eq] at hreduce
      refine ⟨?_, ?_, ?_⟩
      · rw [hstore]
        exact h.registry_eq
      · show store.history = _
        rw [hstore, List.map_append, ← h.history]
        rfl
      · have hbase : store.base = ledger.store.base := by rw [hstore]
        show registry.Follows store.base _ store.state
        rw [hbase]
        refine Registry.follows_append_iff.mpr ⟨ledger.store.state, h.follows, ?_⟩
        exact ⟨Registry.leads_of_reduce hreads hreduce, Node.akin_refl _⟩

/-- What dispatching preserves, a program preserves. -/
theorem sound_program (hreads : registry.ReadsContent) (program : Program) {ledger : Ledger}
    (h : ledger.Sound registry) : (program.run dispatcher ledger).2.Sound registry :=
  Program.run_keeps program.sends_true (fun action _ _ hledger => hledger.dispatch hreads action) h

/-- What a batch that is accepted changes; one without actions changes nothing. -/
theorem applyBatch_ok {store next : Store} {applied : Applied} {actions : List Action}
    {label after : Label}
    (h : (store.applyBatch actions).run label = .ok ((next, applied), after)) :
    (store.registry.reduceAll store.state actions).run label = .ok (next.state, after) ∧
      next = { store with state := next.state, history := store.history ++ actions } := by
  unfold Store.applyBatch at h
  cases actions with
  | nil =>
      cases h
      exact ⟨rfl, by rw [List.append_nil]⟩
  | cons action rest =>
      obtain ⟨state, between, hstate, h⟩ := run_bind_ok.mp h
      cases h
      exact ⟨hstate, rfl⟩

theorem Sound.applyBatch (hreads : registry.ReadsContent) (h : ledger.Sound registry)
    (actions : List Action) : (ledger.perform (.applyBatch actions)).Sound registry := by
  rw [perform]
  cases hrun : (ledger.store.applyBatch actions).run ledger.next with
  | error fault => exact h
  | ok result =>
      obtain ⟨⟨store, applied⟩, next⟩ := result
      obtain ⟨hreduce, hstore⟩ := applyBatch_ok hrun
      obtain ⟨hactions, hfollows⟩ := Registry.follows_trail (h.registry_eq ▸ hreads) hreduce
      refine ⟨?_, ?_, ?_⟩
      · rw [hstore]
        exact h.registry_eq
      · show store.history = _
        rw [List.map_append, hactions, hstore, h.history]
      · have hbase : store.base = ledger.store.base := by rw [hstore]
        show registry.Follows store.base _ store.state
        rw [hbase, ← h.registry_eq]
        rw [← h.registry_eq] at h
        exact Registry.follows_append_iff.mpr ⟨ledger.store.state, h.follows, hfollows⟩

/-- The oldest actions lead from the base to a state that the rest of the history follows. -/
theorem Sound.split (h : ledger.Sound registry) (count : Nat) (label : Label) :
    ∃ between made after, registry.Follows ledger.store.base (ledger.kept.take count) between ∧
      registry.Follows between (ledger.kept.drop count) ledger.store.state ∧
      (ledger.store.registry.reduceAll ledger.store.base (ledger.store.history.take count)).run
        label = .ok (made, after) ∧ between.Akin made := by
  have hfollows := h.follows
  rw [← List.take_append_drop count ledger.kept, Registry.follows_append_iff] at hfollows
  obtain ⟨between, hfront, hback⟩ := hfollows
  obtain ⟨made, after, hmade, hakin⟩ := Registry.reduceAll_of_follows hfront label
  refine ⟨between, made, after, hfront, hback, ?_, hakin⟩
  rw [h.registry_eq, h.history, ← List.map_take]
  exact hmade

/-- **Pruning succeeds**: it drops the oldest actions, and the rest follow the new base. -/
theorem Sound.prune_ok (h : ledger.Sound registry) (keep : Nat) (label : Label) :
    ∃ base after, (ledger.store.prune keep).run label =
      .ok (({ ledger.store with
        base := base
        history := ledger.store.history.drop (ledger.store.history.length - keep) },
        ledger.store.history.length - keep), after) ∧
      registry.Follows base (ledger.kept.drop (ledger.store.history.length - keep))
        ledger.store.state := by
  unfold Store.prune
  by_cases hcount : ledger.store.history.length - keep = 0
  · refine ⟨ledger.store.base, label, ?_, ?_⟩
    · simp only [hcount, if_true, List.drop_zero]
      rfl
    · rw [hcount]
      exact h.follows
  · obtain ⟨between, made, after, -, hback, hmade, hakin⟩ :=
      h.split (ledger.store.history.length - keep) label
    refine ⟨made, after, ?_, hback.of_akin hakin⟩
    simp only [hcount, if_false]
    exact run_bind_ok.mpr ⟨made, after, hmade, rfl⟩

/-- **Every operation preserves the invariant.** -/
theorem Sound.perform (hreads : registry.ReadsContent) (h : ledger.Sound registry)
    (operation : Store.Operation) : (ledger.perform operation).Sound registry := by
  cases operation with
  | apply action => exact h.dispatch hreads action
  | applyNamed type args =>
      rw [Ledger.perform]
      cases ledger.store.registry.create type args with
      | ok action => exact h.dispatch hreads action
      | error fault => exact h
  | applyBatch actions => exact h.applyBatch hreads actions
  | invoke bindings props name args => exact sound_program hreads _ h
  | prune keep =>
      obtain ⟨base, after, hrun, hfollows⟩ := h.prune_ok keep ledger.next
      have hlength : ledger.store.history.length = ledger.kept.length := by
        rw [h.history, List.length_map]
      rw [Ledger.perform, hrun]
      refine ⟨h.registry_eq, ?_, ?_⟩
      · show ledger.store.history.drop _ = _
        rw [hlength, List.map_drop, ← h.history]
      · rw [hlength] at hfollows
        exact hfollows
  | clearHistory => exact ⟨h.registry_eq, rfl, Node.akin_refl _⟩

theorem Sound.performAll (hreads : registry.ReadsContent) {operations : List Store.Operation} :
    ∀ {ledger : Ledger}, ledger.Sound registry →
      (operations.foldl Ledger.perform ledger).Sound registry := by
  induction operations with
  | nil => exact fun h => h
  | cons operation rest ih => exact fun h => ih (h.perform hreads operation)

/-! ### What the invariant gives -/

/-- What a store is good for, told by its ledger. -/
structure Faithful (ledger : Ledger) : Prop where
  /-- The history is what was accepted and not forgotten since, oldest first. -/
  history : ledger.store.history = ledger.kept.map (·.1)
  /-- Any index of the history can be replayed to, and no other. -/
  replays : ∀ index label, (∃ tree after, (ledger.store.replayTo index).run label =
    .ok (tree, after)) ↔ index < ledger.store.history.length
  /-- Replay ends in the content of the state that the action at the index left. -/
  replayed : ∀ index action state label tree after,
    ledger.kept[index]? = some (action, state) →
    (ledger.store.replayTo index).run label = .ok (tree, after) → tree.toJson = state.toJson
  /-- The whole history leads from the base to the content of the present state. -/
  current : ∀ label, ∃ tree after,
    (ledger.store.registry.reduceAll ledger.store.base ledger.store.history).run label =
      .ok (tree, after) ∧ tree.toJson = ledger.store.state.toJson
  /-- Pruning succeeds, drops all but the last actions and says how many, and keeps the state. -/
  pruned : ∀ keep label, ∃ base after, (ledger.store.prune keep).run label =
    .ok (({ ledger.store with
      base := base
      history := ledger.store.history.drop (ledger.store.history.length - keep) },
      ledger.store.history.length - keep), after)

theorem Sound.replayTo (h : ledger.Sound registry) {index : Nat}
    (hindex : index < ledger.kept.length) (label : Label) :
    ∃ tree after, (ledger.store.replayTo index).run label = .ok (tree, after) ∧
      (ledger.kept[index].2).Akin tree := by
  obtain ⟨between, made, after, hfront, -, hmade, hakin⟩ := h.split (index + 1) label
  have hlength : ¬ledger.store.history.length ≤ index := by
    rw [h.history, List.length_map]
    exact Nat.not_le_of_lt hindex
  rw [← List.take_append_getElem hindex, Registry.follows_append_iff] at hfront
  obtain ⟨earlier, -, -, hlast⟩ := hfront
  refine ⟨made, after, ?_, Node.akin_trans hlast hakin⟩
  unfold Store.replayTo
  simp only [hlength, if_false]
  exact hmade

theorem Sound.faithful (h : ledger.Sound registry) : ledger.Faithful where
  history := h.history
  replays index label := by
    have hlength : ledger.store.history.length = ledger.kept.length := by
      rw [h.history, List.length_map]
    constructor
    · rintro ⟨tree, after, hrun⟩
      by_contra hnot
      have hle : ledger.store.history.length ≤ index := Nat.le_of_not_lt hnot
      unfold Store.replayTo at hrun
      rw [if_pos hle] at hrun
      cases hrun
    · intro hindex
      obtain ⟨tree, after, hrun, -⟩ := h.replayTo (hlength ▸ hindex) label
      exact ⟨tree, after, hrun⟩
  replayed index action state label tree after hentry hrun := by
    obtain ⟨hindex, hentry⟩ := List.getElem?_eq_some_iff.mp hentry
    obtain ⟨made, ending, hmade, hakin⟩ := h.replayTo hindex label
    rw [hrun] at hmade
    cases hmade
    rw [hentry] at hakin
    exact hakin.toJson_eq.symm
  current label := by
    obtain ⟨tree, after, hrun, hakin⟩ := Registry.reduceAll_of_follows h.follows label
    rw [h.registry_eq, h.history]
    exact ⟨tree, after, hrun, hakin.toJson_eq.symm⟩
  pruned keep label := by
    obtain ⟨base, after, hrun, -⟩ := h.prune_ok keep label
    exact ⟨base, after, hrun⟩

end Ledger

/--
**The history of a store can be trusted.**  Take a registry whose callbacks and predicates
read contents, a store that starts with any state, and operations in any order, some of
them refused, some of them thunks that fail midway.  Beside the store the ledger has
written down what was accepted and not forgotten since; the history is that, every entry
of it can be replayed to the content it had, the whole of it leads from the base to the
content of the present state, and pruning cannot fail.
-/
theorem Ledger.faithful_after {registry : Registry} (hreads : registry.ReadsContent)
    (state : Node) (label : Label) (operations : List Store.Operation) :
    operations.foldl Store.perform (Store.ofState registry state, label) =
        (operations.foldl Ledger.perform (Ledger.start registry state label)).running ∧
      (operations.foldl Ledger.perform (Ledger.start registry state label)).Faithful :=
  ⟨Ledger.running_after operations (Ledger.start registry state label),
    (Ledger.Sound.performAll hreads (Ledger.sound_start registry state label)).faithful⟩

/-- Two items are appended, a type nobody knows is refused, and one item is pruned. -/
theorem Ledger.faithful_after_append :
    ([.apply ⟨"t", .null⟩, .applyNamed "gone" [], .apply ⟨"t", .null⟩, .prune 1].foldl
      Ledger.perform (Ledger.start (Registry.ofEffects "t"
        [⟨[.key "list"], some (.append fun _ _ _ => .keep .null)⟩])
        (.obj 0 [("list", .arr 1 [])]) 2)).Faithful := by
  refine (Ledger.faithful_after ⟨fun type trie htrie => ?_, fun type redirects hheld => ?_⟩ _ _ _).2
  · have htrie : (if "t" = type then some (Trie.empty.insertAll
        [([.literal (.key "list")], .append fun _ _ _ => .keep .null)]) else none) = some trie :=
      htrie
    obtain ⟨-, heq⟩ := Option.ite_none_right_eq_some.mp htrie
    cases heq
    refine Trie.every_insertAll ?_ Trie.every_empty
    simp [Step.ReadsContent, Effect.ReadsContent, Callback.ReadsContent]
  · cases hheld

end Reducer
