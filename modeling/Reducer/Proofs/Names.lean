/-
Names that can be invoked.

A scope keeps its creators and its thunks in two tables, and whoever binds the scope has them
listed one after the other.  What is in the tables has come there over many calls.  The entries
that were accepted into the scope are read off the calls, `entered`, and the tables are made of
them alone, each written over the ones before it: `entered_after`.  So each table lists its
names in the order in which they first came, and has under a name what came last.

A name of one kind is not kept from being a name of the other as well.  Then it is listed
twice, and as a creator is looked for first, the thunk is not run.  No other name is listed
twice, and every other thunk is run: `names_of_scope`.
-/
import Reducer.Proofs.Invocation
import Reducer.Proofs.Merge
import Reducer.Proofs.Recording
import Reducer.Recorder

namespace Reducer

namespace Registry

/-! ### What was entered into a scope -/

/-- The entries accepted into a scope by calls that begin at a registry, after `sofar`. -/
def enteredFrom (registry : Registry) (group : Option String) (sofar : List (String × Entry)) :
    List Command → List (String × Entry)
  | [] => sofar
  | .clear :: rest => enteredFrom .empty group [] rest
  | .register batch redirects other :: rest =>
      match registry.register batch redirects other with
      | .ok next =>
          enteredFrom next group (if other = group then sofar ++ batch.flatten else sofar) rest
      | .error _ => enteredFrom registry group sofar rest

/-- The entries accepted into a scope since everything was last forgotten. -/
def entered (commands : List Command) (group : Option String) : List (String × Entry) :=
  enteredFrom .empty group [] commands

/-- The names of the reactions, in order. -/
def reactionNames (entries : List (String × Entry)) : List String :=
  entries.filterMap fun
    | (name, .reaction _) => some name
    | _ => none

/-- The names of the thunks, in order. -/
def thunkNames (entries : List (String × Entry)) : List String :=
  entries.filterMap fun
    | (name, .thunk _) => some name
    | _ => none

/-- The creator of the reaction that came last under a name. -/
def lastCreator? (group : Option String) (entries : List (String × Entry)) (name : String) :
    Option Creator :=
  Table.get? (entries.flatMap (creatorBy group)).reverse name

/-- The thunk that came last under a name. -/
def lastThunk? (entries : List (String × Entry)) (name : String) : Option Thunk :=
  Table.get? (entries.flatMap thunkBy).reverse name

/-- The scope has what was entered, each entry written over the ones before it. -/
structure Entered (registry : Registry) (group : Option String)
    (entries : List (String × Entry)) : Prop where
  creators : (registry.held group).creators = Table.ofEntries (entries.flatMap (creatorBy group))
  thunks : (registry.held group).thunks = Table.ofEntries (entries.flatMap thunkBy)
  complete : ∀ entry ∈ entries, ∀ reaction, entry.2 = .reaction reaction → Complete reaction

variable {registry next : Registry} {batch : List Declarations} {redirects : Option Redirects}
  {group other : Option String} {entries : List (String × Entry)} {commands : List Command}

theorem entered_empty (group : Option String) : Registry.empty.Entered group [] := by
  cases group <;> exact ⟨rfl, rfl, List.forall_mem_nil _⟩

/-- A batch that is accepted is entered into its own scope, and into no other. -/
theorem Entered.register (h : registry.Entered group entries)
    (hregister : registry.register batch redirects other = .ok next) :
    next.Entered group (if other = group then entries ++ batch.flatten else entries) := by
  obtain ⟨hcreators, hthunks, hcomplete⟩ := h
  have hbatch := complete_of_register hregister
  obtain ⟨_, -, hrecord⟩ := bind_ok hregister
  cases hrecord
  have hwrites := writes_record registry batch redirects other
  by_cases hother : other = group
  · subst hother
    rw [if_pos rfl]
    have hheld := held_of_scope hwrites.scope
    refine ⟨?_, ?_, List.forall_mem_append.mpr ⟨hcomplete, hbatch⟩⟩
    · rw [hheld, List.flatMap_append, Table.ofEntries, Table.merge_append]
      exact congrArg (Table.merge · _) hcreators
    · rw [hheld, List.flatMap_append, Table.ofEntries, Table.merge_append]
      exact congrArg (Table.merge · _) hthunks
  · have hheld : (registry.record batch redirects other).held group = registry.held group := by
      rw [held, hwrites.others group hother, held]
    rw [if_neg hother]
    exact ⟨hheld ▸ hcreators, hheld ▸ hthunks, hcomplete⟩

/-- **After any calls, a scope has what was entered since everything was last forgotten.** -/
theorem entered_after (commands : List Command) (group : Option String) :
    (after commands).Entered group (entered commands group) := by
  have hfrom : ∀ {registry : Registry} {entries : List (String × Entry)},
      registry.Entered group entries →
        (commands.foldl step registry).Entered group
          (enteredFrom registry group entries commands) := by
    induction commands with
    | nil => exact fun h => h
    | cons command rest ih =>
        intro registry entries h
        rw [List.foldl_cons]
        cases command with
        | clear => exact ih (entered_empty group)
        | register batch redirects other =>
            rw [step, enteredFrom]
            cases hregister : registry.register batch redirects other with
            | ok next => exact ih (h.register hregister)
            | error fault => exact ih h
  exact hfrom (entered_empty group)

/-! ### The names of the tables -/

theorem keys_flatMap_creatorBy (group : Option String)
    (h : ∀ entry ∈ entries, ∀ reaction, entry.2 = .reaction reaction → Complete reaction) :
    Table.keys (entries.flatMap (creatorBy group)) = reactionNames entries := by
  induction entries with
  | nil => rfl
  | cons entry rest ih =>
      obtain ⟨hfirst, hrest⟩ := List.forall_mem_cons.mp h
      obtain ⟨name, entry⟩ := entry
      cases entry with
      | reaction reaction =>
          obtain ⟨payload, effects⟩ := reaction
          obtain ⟨payload, rfl⟩ := Option.isSome_iff_exists.mp (hfirst _ rfl).payload
          exact congrArg (name :: ·) (ih hrest)
      | _ => exact ih hrest

theorem keys_flatMap_thunkBy (entries : List (String × Entry)) :
    Table.keys (entries.flatMap thunkBy) = thunkNames entries := by
  induction entries with
  | nil => rfl
  | cons entry rest ih =>
      obtain ⟨name, entry⟩ := entry
      cases entry with
      | thunk thunk => exact congrArg (name :: ·) ih
      | _ => exact ih

/-- The names of the reactions are those of the creators that the scope has. -/
theorem Entered.mem_reactionNames (h : registry.Entered group entries) (name : String) :
    name ∈ reactionNames entries ↔ name ∈ Table.keys (registry.held group).creators := by
  rw [h.creators, Table.mem_keys_ofEntries, keys_flatMap_creatorBy group h.complete]

/-- The names of the thunks are those of the thunks that the scope has. -/
theorem Entered.mem_thunkNames (h : registry.Entered group entries) (name : String) :
    name ∈ thunkNames entries ↔ name ∈ Table.keys (registry.held group).thunks := by
  rw [h.thunks, Table.mem_keys_ofEntries, keys_flatMap_thunkBy]

end Registry

/-! ### What is listed, and where it leads -/

/-- The names listed are those of what was entered into a scope, and they lead to it. -/
structure Bindings.Faithful (bindings : Bindings) (group : Option String)
    (entries : List (String × Entry)) : Prop where
  /-- The names of reactions come first and those of thunks after them, each kind in the order in
  which its names first came. -/
  order : bindings.names = (Registry.reactionNames entries).eraseDups ++
    (Registry.thunkNames entries).eraseDups
  /-- The names listed are those that can be invoked. -/
  listed : ∀ name, name ∈ bindings.names ↔ bindings.has name = true
  /-- Each is listed once, but twice if it is the name of a reaction and of a thunk. -/
  count : ∀ name, bindings.has name = true → bindings.names.count name =
    if name ∈ Registry.reactionNames entries ∧ name ∈ Registry.thunkNames entries then 2 else 1
  /-- The last thunk of a name that no reaction has is run, with what it is given. -/
  runs : ∀ name ∈ Registry.thunkNames entries, name ∉ Registry.reactionNames entries →
    ∃ thunk, Registry.lastThunk? entries name = some thunk ∧
      ∀ {σ : Type} (dispatcher : Dispatcher σ) (props : Node) (args : List Json),
        (bindings.bind dispatcher props).invoke name args =
          (thunk ⟨props, bindings.creators, args⟩).run dispatcher
  /-- The name of a reaction dispatches what its last creator builds, also if a thunk has it. -/
  dispatches : ∀ name ∈ Registry.reactionNames entries,
    ∃ creator, Registry.lastCreator? group entries name = some creator ∧
      ∀ {σ : Type} (dispatcher : Dispatcher σ) (props : Node) (args : List Json),
        (bindings.bind dispatcher props).invoke name args =
          dispatcher.dispatch (creator.create args)

namespace Registry

variable {registry : Registry} {group : Option String} {entries : List (String × Entry)}
  {commands : List Command} {scope : Scope}

/-- What is entered into a scope is what its names say. -/
theorem Entered.faithful (h : registry.Entered group entries)
    (hscope : registry.scope group = .ok scope) :
    Bindings.Faithful ⟨scope.creators, scope.thunks⟩ group entries := by
  have hcreator := h.mem_reactionNames
  have hthunk := h.mem_thunkNames
  obtain ⟨hcreators, hthunks, hcomplete⟩ := h
  rw [held_of_scope hscope] at hcreators hthunks hcreator hthunk
  have hreactions := keys_flatMap_creatorBy group hcomplete
  have hnames := keys_flatMap_thunkBy entries
  refine ⟨?_, ?_, ?_, ?_, ?_⟩
  · rw [Bindings.names, hcreators, hthunks, Table.keys_ofEntries, Table.keys_ofEntries,
      hreactions, hnames]
  · intro name
    rw [Bindings.names, Bindings.has, List.mem_append, Bool.or_eq_true, Table.mem_keys_iff_has,
      Table.mem_keys_iff_has]
  · intro name hhas
    rw [Bindings.has, Bool.or_eq_true, ← Table.mem_keys_iff_has, ← Table.mem_keys_iff_has,
      ← hcreator, ← hthunk] at hhas
    rw [Bindings.names, List.count_append, hcreators, hthunks, Table.count_keys_ofEntries,
      Table.count_keys_ofEntries, hreactions, hnames]
    by_cases hreaction : name ∈ reactionNames entries <;>
      by_cases hname : name ∈ thunkNames entries <;> simp_all
  · intro name hname hreaction
    obtain ⟨thunk, hfound⟩ := Table.exists_of_mem_keys ((hthunk name).mp hname)
    have hnone := (Table.get?_eq_none_iff scope.creators name).mpr fun hmem =>
      hreaction ((hcreator name).mpr hmem)
    refine ⟨thunk, ?_, fun dispatcher props args =>
      Bindings.invoke_of_thunk dispatcher props args hnone hfound⟩
    rw [lastThunk?, ← Table.get?_ofEntries, ← hthunks, hfound]
  · intro name hreaction
    obtain ⟨creator, hfound⟩ := Table.exists_of_mem_keys ((hcreator name).mp hreaction)
    refine ⟨creator, ?_, fun dispatcher props args =>
      Bindings.invoke_of_creator dispatcher props args hfound⟩
    rw [lastCreator?, ← Table.get?_ofEntries, ← hcreators, hfound]

/--
**The list of names is faithful to what was registered.**  Whatever calls were made, a scope can
be bound, and its names are listed in order, those of reactions and then those of thunks.  The
names that can be invoked are listed once each, but for those that both a reaction and a thunk
have, and these are listed twice.  A thunk is run by its name unless a reaction of the scope has
that name as well; the reaction's action is dispatched then.
-/
theorem names_of_scope (h : (after commands).scope group = .ok scope) :
    ∃ bindings, (after commands).bindings group = .ok bindings ∧
      bindings.Faithful group (entered commands group) := by
  have hbindings : (after commands).bindings group = .ok ⟨scope.creators, scope.thunks⟩ := by
    rw [Registry.bindings, h]
    rfl
  exact ⟨_, hbindings, (entered_after commands group).faithful h⟩

/-! ### A name of both kinds -/

/-- A thunk that only fails. -/
def refuses : Thunk := fun _ => .fail (.unknownAction "full")

/-- A group in which a reaction and a thunk have one name. -/
def bothKinds : List Command :=
  [.register [[("add", .reaction ⟨some fun _ => .null, []⟩)], [("add", .thunk refuses)]] none
    (some "list")]

/-- The group after another call, in which a thunk comes that has its name for itself. -/
def oneMore : List Command :=
  bothKinds ++ [.register [[("twice", .thunk twice)]] none (some "list")]

/-- The name of both kinds is listed twice; the new thunk is listed once, and run. -/
theorem names_of_scope_oneMore :
    ∃ scope bindings, (after oneMore).scope (some "list") = .ok scope ∧
      (after oneMore).bindings (some "list") = .ok bindings ∧
      bindings.Faithful (some "list") (entered oneMore (some "list")) ∧
      bindings.names = ["add", "add", "twice"] ∧
      (bindings.bind Recorder.dispatcher .null).invoke "twice" [] ⟨.null, some 1, []⟩ =
        (.error (.unknownAction "refused list.add"), ⟨.null, some 1, [⟨"list.add", .null⟩]⟩) := by
  have hscope : ∃ scope, (after oneMore).scope (some "list") = .ok scope := ⟨_, rfl⟩
  obtain ⟨scope, hscope⟩ := hscope
  obtain ⟨bindings, hbindings, hfaithful⟩ := names_of_scope hscope
  refine ⟨scope, bindings, hscope, hbindings, hfaithful, hfaithful.order.trans (by decide), ?_⟩
  obtain ⟨thunk, hthunk, hruns⟩ := hfaithful.runs "twice" (by decide) (by decide)
  rw [hruns]
  cases hbindings
  cases hthunk
  rfl

/-- Where a reaction and a thunk have one name, it is listed twice and the thunk is not run. -/
theorem thunk_hidden_by_reaction :
    ∃ bindings, (after bothKinds).bindings (some "list") = .ok bindings ∧
      (¬∀ name, bindings.has name = true → bindings.names.count name = 1) ∧
      ¬∀ name thunk, Table.get? bindings.thunks name = some thunk →
        ∀ (dispatcher : Dispatcher Recorder) (props : Node) (args : List Json),
          (bindings.bind dispatcher props).invoke name args =
            (thunk ⟨props, bindings.creators, args⟩).run dispatcher := by
  refine ⟨_, rfl, fun honce => ?_, fun hruns => ?_⟩
  · cases honce "add" rfl
  · have hended := congrFun (hruns "add" refuses rfl Recorder.dispatcher .null [])
      ⟨.null, none, []⟩
    cases hended

end Registry

end Reducer
