/-
Batches and their actions one by one.

A batch reduces all its actions before it commits anything, while actions that are applied
one by one are committed each on its own.  Up to what is reported the two are the same work,
`applyBatch_eq`: both reduce the actions in order and write them into the history, the batch
at the end and the others on the way.

So what is true of one is true of the other, at the same labels.  They are not run at the same
labels, though: whoever applies the actions of a batch one by one does so on another occasion.
With callbacks that read contents the labels make no difference, to faults as little as to
contents, and it is this that carries over from one run to the other.
-/
import Reducer.Proofs.Agreement
import Reducer.Proofs.Replay

namespace Reducer

open Build

namespace Store

/-! ### One by one -/

/-- Applies actions one by one, until one is refused. -/
def applyEach (store : Store) : List Action → Build Store
  | [] => pure store
  | action :: rest => do
      let (next, _) ← store.apply action
      applyEach next rest

/-- The fault is that of the first action to be refused, when they are applied one by one. -/
def RefusesFirst (store : Store) (actions : List Action) (label : Label) (fault : Fault) : Prop :=
  ∃ front action rest reached between, actions = front ++ action :: rest ∧
    (store.applyEach front).run label = .ok (reached, between) ∧
    (reached.apply action).run between = .error fault

/-- A batch that was accepted, beside the store that its actions lead to one by one. -/
structure Matches (store : Store) (actions : List Action) (batch : Store × Applied)
    (each : Store) : Prop where
  registry : batch.1.registry = each.registry
  base : batch.1.base = each.base
  state : batch.1.state.toJson = each.state.toJson
  history : batch.1.history = each.history
  count : batch.2.count = actions.length
  changes : batch.2.changes = store.state.changes batch.1.state

variable {store : Store} {actions : List Action} {label later after : Label} {fault : Fault}

/-- One by one, the actions are reduced in order and end up in the history. -/
theorem applyEach_eq (store : Store) (actions : List Action) :
    store.applyEach actions =
      (fun state => { store with state := state, history := store.history ++ actions }) <$>
        store.registry.reduceAll store.state actions := by
  induction actions generalizing store with
  | nil =>
      rw [applyEach, Registry.reduceAll, map_pure, List.append_nil]
  | cons action rest ih =>
      rw [applyEach, Registry.reduceAll, apply, bind_assoc, map_bind]
      refine bind_congr fun next => ?_
      rw [pure_bind]
      dsimp only
      rw [ih]
      dsimp only
      rw [List.append_assoc, List.singleton_append]

/-- **A batch does what its actions do one by one, and reports on the whole.** -/
theorem applyBatch_eq (store : Store) (actions : List Action) :
    store.applyBatch actions =
      (fun next => (next, ⟨actions.length, store.state.changes next.state⟩)) <$>
        store.applyEach actions := by
  cases actions with
  | nil =>
      have hnone : store.state.changes store.state = [] := by
        rw [Node.changes, if_pos (Node.same_refl _)]
      rw [applyEach, map_pure, hnone]
      rfl
  | cons action rest =>
      rw [applyEach_eq, map_eq_pure_bind, map_eq_pure_bind, bind_assoc]
      rfl

/-- An action alone is a batch of one. -/
theorem applyBatch_singleton (store : Store) (action : Action) :
    store.applyBatch [action] = store.apply action := by
  rw [applyBatch_eq, applyEach, map_bind, apply, bind_assoc]
  refine bind_congr fun next => ?_
  rw [pure_bind]
  rfl

/-! ### The first that is refused -/

theorem applyEach_append (store : Store) (front back : List Action) :
    store.applyEach (front ++ back) =
      store.applyEach front >>= fun next => next.applyEach back := by
  induction front generalizing store with
  | nil => rw [List.nil_append, applyEach, pure_bind]
  | cons action rest ih =>
      rw [List.cons_append, applyEach, applyEach, bind_assoc]
      exact bind_congr fun next => ih next.1

/-- Applying one by one fails with the fault of the first action that is refused. -/
theorem applyEach_error_iff :
    (store.applyEach actions).run label = .error fault ↔
      store.RefusesFirst actions label fault := by
  constructor
  · intro h
    induction actions generalizing store label with
    | nil => cases h
    | cons action rest ih =>
        rw [applyEach, run_bind] at h
        cases hfirst : (store.apply action).run label with
        | error refused =>
            rw [hfirst] at h
            cases h
            exact ⟨[], action, rest, store, label, rfl, rfl, hfirst⟩
        | ok result =>
            obtain ⟨⟨next, applied⟩, between⟩ := result
            rw [hfirst] at h
            obtain ⟨front, refused, others, reached, ending, heq, hfront, hrefused⟩ := ih h
            refine ⟨action :: front, refused, others, reached, ending, ?_, ?_, hrefused⟩
            · rw [heq, List.cons_append]
            · rw [applyEach]
              exact run_bind_ok.mpr ⟨_, between, hfirst, hfront⟩
  · rintro ⟨front, action, rest, reached, between, rfl, hfront, hrefused⟩
    rw [applyEach_append, run_bind, hfront]
    show (reached.applyEach (action :: rest)).run between = _
    rw [applyEach, run_bind, hrefused]

/-! ### Batches -/

/-- The batch and its actions one by one end alike, on whatever occasions. -/
theorem agree_applyBatch (hreads : store.registry.ReadsContent) (actions : List Action) :
    Agree (store.Matches actions) (store.applyBatch actions) (store.applyEach actions) := by
  -- Both are one reduction of all actions, which is run twice, from labels of its own each time.
  rw [applyBatch_eq, applyEach_eq, Functor.map_map]
  refine (Registry.agree_reduceAll hreads actions (Node.akin_refl store.state)).map ?_
  intro state made hakin
  exact ⟨rfl, rfl, hakin.toJson_eq, rfl, rfl, rfl⟩

/-- A batch that is refused is not seen in the store. -/
theorem perform_applyBatch_of_error (h : (store.applyBatch actions).run label = .error fault) :
    perform (store, label) (.applyBatch actions) = (store, label) := by
  rw [perform, commit, h]

/--
**A batch is its actions one by one, all or none.**  With callbacks that read contents, and on
whatever occasions the two are run, the batch succeeds just when every action of it is accepted,
and then it leads to the same content and the same history, and reports how many actions there
were and where the states before and after the whole of it differ.  If an action is refused, the
batch is refused with the fault of the first one that is, and the store stays as it was.
-/
theorem applyBatch_all_or_none (store : Store) (hreads : store.registry.ReadsContent)
    (actions : List Action) (label later : Label) :
    ((∃ batch after, (store.applyBatch actions).run label = .ok (batch, after)) ↔
      ∃ each ending, (store.applyEach actions).run later = .ok (each, ending)) ∧
    (∀ batch after each ending, (store.applyBatch actions).run label = .ok (batch, after) →
      (store.applyEach actions).run later = .ok (each, ending) →
      store.Matches actions batch each) ∧
    ∀ fault, (store.applyBatch actions).run label = .error fault →
      store.RefusesFirst actions later fault ∧
        perform (store, label) (.applyBatch actions) = (store, label) := by
  have hends := agree_applyBatch hreads actions label later
  refine ⟨?_, ?_, ?_⟩
  · generalize (store.applyBatch actions).run label = one at hends
    generalize (store.applyEach actions).run later = two at hends
    cases hends with
    | error => simp
    | ok h => exact ⟨fun _ => ⟨_, _, rfl⟩, fun _ => ⟨_, _, rfl⟩⟩
  · intro batch after each ending hbatch heach
    rw [hbatch, heach] at hends
    cases hends with
    | ok h => exact h
  · intro fault hfault
    refine ⟨applyEach_error_iff.mp ?_, perform_applyBatch_of_error hfault⟩
    rw [hfault] at hends
    generalize (store.applyEach actions).run later = two at hends
    cases hends
    rfl

/-- A store over a list that is appended to and then made no list any more. -/
def onceOnly : Store :=
  ofState (Registry.ofEffects "t" [⟨[.key "list"], some (.append fun _ _ _ => .keep .null)⟩,
    ⟨[.key "list"], some (.set fun _ _ _ => .keep (.bool true))⟩])
    (.obj 0 [("list", .arr 1 [])])

theorem readsContent_onceOnly : onceOnly.registry.ReadsContent := by
  refine ⟨fun type trie htrie => ?_, fun type redirects hheld => ?_⟩
  · have htrie : (if "t" = type then some (Trie.empty.insertAll
        [([.literal (.key "list")], .append fun _ _ _ => .keep .null),
          ([.literal (.key "list")], .set fun _ _ _ => .keep (.bool true))]) else none) =
        some trie := htrie
    obtain ⟨-, heq⟩ := Option.ite_none_right_eq_some.mp htrie
    cases heq
    refine Trie.every_insertAll ?_ Trie.every_empty
    simp [Step.ReadsContent, Effect.ReadsContent, Callback.ReadsContent]
  · cases hheld

/-- The action once is accepted, on either occasion; twice it is refused the second time. -/
theorem applyBatch_all_or_none_onceOnly :
    (∃ batch after each ending,
      (onceOnly.applyBatch [⟨"t", .null⟩]).run 2 = .ok (batch, after) ∧
      (onceOnly.applyEach [⟨"t", .null⟩]).run 7 = .ok (each, ending) ∧
      onceOnly.Matches [⟨"t", .null⟩] batch each) ∧
    onceOnly.RefusesFirst [⟨"t", .null⟩, ⟨"t", .null⟩] 7 (.appendToOther [.key "list"]) ∧
      perform (onceOnly, 2) (.applyBatch [⟨"t", .null⟩, ⟨"t", .null⟩]) = (onceOnly, 2) := by
  obtain ⟨-, hmatches, -⟩ :=
    applyBatch_all_or_none onceOnly readsContent_onceOnly [⟨"t", .null⟩] 2 7
  obtain ⟨-, -, hrefused⟩ :=
    applyBatch_all_or_none onceOnly readsContent_onceOnly [⟨"t", .null⟩, ⟨"t", .null⟩] 2 7
  exact ⟨⟨_, _, _, _, rfl, rfl, hmatches _ _ _ _ rfl rfl⟩, hrefused _ rfl⟩

end Store

end Reducer
