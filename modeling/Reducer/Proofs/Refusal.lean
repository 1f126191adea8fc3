/-
What a reduction fails on.

A reduction can fail in its effects alone, and an effect in few ways: `Effect.Fails` lists
them, each with the fault it makes.  The fault has the place the effect was run at, and that is
the place to which the walk had come: there are steps down the trie, as many as the place has
segments, each of which led to the slot of its segment, and the effect that fails lies at the
end of them.  So the place is never the root, and where all slices are names it is one of the
slices: `slot_of_reduce_error`.
-/
import Reducer.Proofs.Effect
import Reducer.Proofs.Reduction
import Reducer.Proofs.Registration
import Reducer.Proofs.Walk.Literal
import Reducer.Proofs.Walk.Refusal

namespace Reducer

open Build

theorem Node.items?_eq_none_iff {node : Node} : node.items? = none ↔ node.kind ≠ .array := by
  cases node <;> simp [items?, kind]

/-- The place that a fault names; faults of declarations and of look-ups name none. -/
def Fault.place? : Fault → Option Path
  | appendToOther path | assignToOther path | wrongKind path _ _ | outOfBounds path _ _ => some path
  | _ => none

namespace Effect

/-! ### How an effect fails -/

/-- An effect that is run at a path, on what the slot holds now, fails with a fault. -/
inductive Fails (action : Action) (view : Node) (path : Path) (now : Option Node) :
    Effect → Fault → Prop
  /-- An item is appended to what is no array. -/
  | append {callback} (hvalue : appendable? (now.getD .null) = none) :
      Fails action view path now (.append callback) (.appendToOther path)
  /-- Fields are assigned to what is no object. -/
  | assign {callback} (hvalue : assignable? (now.getD .null) = none) :
      Fails action view path now (.assign callback) (.assignToOther path)
  /-- What is no object is assigned to one. -/
  | patch {callback label}
      (hvalue : (assignable? (now.getD .null)).isSome = true)
      (hpatch : assignable? ((callback action view (now.getD .null)).build label).1 = none) :
      Fails action view path now (.assign callback) (.assignToOther path)
  /-- An item is inserted into what is no array. -/
  | kind {callback} (hkind : (now.getD .null).kind ≠ .array) :
      Fails action view path now (.insert callback)
        (.wrongKind path .array (now.getD .null).kind)
  /-- An item is inserted past the end. -/
  | bounds {callback label items} (hnow : now = some (.arr label items))
      (hindex : items.length < (callback action view (.arr label items)).1) :
      Fails action view path now (.insert callback)
        (.outOfBounds path (callback action view (.arr label items)).1 items.length)

variable {action : Action} {view : Node} {path : Path} {now : Option Node} {fault : Fault}
  {label : Label}

theorem Fails.place?_eq {effect : Effect} (h : effect.Fails action view path now fault) :
    fault.place? = some path := by
  cases h <;> rfl

theorem items?_eq_some_iff {items : List Node} :
    (now.getD .null).items? = some items ↔ ∃ label, now = some (.arr label items) := by
  cases now with
  | none => simp [Node.items?]
  | some node => cases node <;> simp [Node.items?]

theorem run_append_error {callback : Callback} :
    ((append callback).run action view path now).run label = .error fault ↔
      appendable? (now.getD .null) = none ∧ fault = .appendToOther path := by
  rw [run_append, run_bind, run_draft]
  dsimp only
  cases appendable? (now.getD .null) with
  | none => exact run_throw_error.trans (by simp)
  | some items => exact ⟨nofun, nofun⟩

theorem run_insert_error {callback : Action → Node → Node → Nat × Draft} :
    ((insert callback).run action view path now).run label = .error fault ↔
      (now.getD .null).items? = none ∧ fault = .wrongKind path .array (now.getD .null).kind ∨
      ∃ items, (now.getD .null).items? = some items ∧
        items.length < (callback action view (now.getD .null)).1 ∧
        fault = .outOfBounds path (callback action view (now.getD .null)).1 items.length := by
  rw [run_insert]
  dsimp only
  rw [run_bind, run_draft]
  dsimp only
  cases (now.getD .null).items? with
  | none => exact run_throw_error.trans (by simp)
  | some items =>
      dsimp only
      split
      · rename_i hindex
        exact run_throw_error.trans (by simp [hindex])
      · rename_i hindex
        refine ⟨nofun, ?_⟩
        rintro (⟨⟨⟩, -⟩ | ⟨_, ⟨⟩, hpast, -⟩)
        exact absurd hpast hindex

theorem run_assign_error {callback : Callback} :
    ((assign callback).run action view path now).run label = .error fault ↔
      (assignable? (now.getD .null) = none ∨ (assignable? (now.getD .null)).isSome = true ∧
        assignable? ((callback action view (now.getD .null)).build label).1 = none) ∧
      fault = .assignToOther path := by
  rw [run_assign]
  cases assignable? (now.getD .null) with
  | none => exact run_throw_error.trans (by simp)
  | some fields =>
      dsimp only
      rw [run_bind, run_draft]
      dsimp only
      cases assignable? ((callback action view (now.getD .null)).build label).1 with
      | none => exact run_throw_error.trans (by simp)
      | some changes => exact ⟨nofun, by simp⟩

/-- An effect fails in one of these ways and in no other. -/
theorem fails_iff {effect : Effect} :
    (∃ label, (effect.run action view path now).run label = .error fault) ↔
      effect.Fails action view path now fault := by
  constructor
  · rintro ⟨label, h⟩
    cases effect with
    | set callback => cases h
    | delete => cases h
    | append callback =>
        obtain ⟨hvalue, rfl⟩ := run_append_error.mp h
        exact .append hvalue
    | insert callback =>
        rcases run_insert_error.mp h with ⟨hvalue, rfl⟩ | ⟨items, hvalue, hindex, rfl⟩
        · exact .kind (Node.items?_eq_none_iff.mp hvalue)
        · obtain ⟨old, rfl⟩ := items?_eq_some_iff.mp hvalue
          exact .bounds rfl hindex
    | assign callback =>
        obtain ⟨hvalue | ⟨hvalue, hpatch⟩, rfl⟩ := run_assign_error.mp h
        · exact .assign hvalue
        · exact .patch hvalue hpatch
  · intro h
    cases h with
    | append hvalue => exact ⟨0, run_append_error.mpr ⟨hvalue, rfl⟩⟩
    | assign hvalue => exact ⟨0, run_assign_error.mpr ⟨.inl hvalue, rfl⟩⟩
    | patch hvalue hpatch => exact ⟨_, run_assign_error.mpr ⟨.inr ⟨hvalue, hpatch⟩, rfl⟩⟩
    | kind hkind =>
        exact ⟨0, run_insert_error.mpr (.inl ⟨Node.items?_eq_none_iff.mpr hkind, rfl⟩)⟩
    | bounds hnow hindex =>
        subst hnow
        exact ⟨0, run_insert_error.mpr (.inr ⟨_, rfl, hindex, rfl⟩)⟩

end Effect

/-! ### Where it fails -/

/--
An effect of the trie fails at a place: the walk came there along steps of the trie, one for
each segment, and the effect lies at the end of them.
-/
structure Pass.FailsAt (pass : Pass) (start : Frame Effect) (trie : Trie Effect)
    (steps : List Step) (place : Path) (effect : Effect) (fault : Fault) : Prop where
  /-- The root itself is no slot. -/
  slot : place ≠ []
  /-- There is one step for each segment. -/
  length : steps.length = place.length
  /-- From the top of the trie, each step has led to the slot of its segment. -/
  led : pass.walker.Led start trie steps place
  /-- The effect lies where the steps end. -/
  lies : ∃ node, trie.at? steps = some node ∧ effect ∈ node.values
  /-- It is run there, and this is how it fails. -/
  fails : ∃ now, pass.walker.Runs start place effect now ∧
    effect.Fails pass.action pass.view place now fault

namespace Walker

variable {α : Type} {walker : Walker Build α} {start : Frame α} {trie : Trie α}

/-- Where a trie holds paths only, a walk by names runs its values at their own paths. -/
theorem Led.mem_of_paths (hnames : walker.ByName) (hroot : start.path = [])
    {entries : List (List Step × α)} (hholds : trie.Holds entries)
    (hpaths : ∀ entry ∈ entries, ∃ path : Path, entry.1 = path.steps) {steps : List Step}
    {place : Path} (h : walker.Led start trie steps place) {node : Trie α}
    (hnode : trie.at? steps = some node) {value : α} (hvalue : value ∈ node.values) :
    (place.steps, value) ∈ entries := by
  rw [hholds.values_eq steps node hnode] at hvalue
  obtain ⟨⟨taken, found⟩, hentry, rfl⟩ := List.mem_map.mp hvalue
  obtain ⟨hmem, hkeys⟩ := List.mem_filter.mp hentry
  obtain ⟨path, rfl⟩ : ∃ path : Path, taken = path.steps := hpaths _ hmem
  rw [h.place_eq hnames hroot (of_decide_eq_true hkeys).symm]
  exact hmem

end Walker

namespace Registry

/--
**Faults of a reduction point at the slot that failed.**  After any calls, where a reduction
fails an effect of the action's trie has failed, in one of the ways an effect can fail, and the
fault has the place of its slot.  The place is not the root, and the walk was led there along
steps of the trie, a step for each segment, with the effect at their end.  Where all slices of
the action are names, the place is the slice that the effect was declared on.
-/
theorem slot_of_reduce_error {commands : List Command} {state : Node} {action : Action}
    {label : Label} {fault : Fault}
    (h : ((after commands).reduce state action).run label = .error fault) :
    ∃ trie pass start steps place effect,
      (after commands).trie? action.type = some trie ∧
      (after commands).Starts state action label pass start ∧
      fault.place? = some place ∧ pass.FailsAt start trie steps place effect fault ∧
      ((∀ entry ∈ accepted commands action.type, ∃ path : Path, entry.1 = path.steps) →
        (place.steps, effect) ∈ accepted commands action.type) := by
  rcases (after commands).reduce_cases state action label with
    ⟨-, hrun⟩ | ⟨pass, start, hstart, hrun⟩
  · rw [hrun] at h
    cases h
  · rw [hrun] at h
    have hfresh : ∀ label fault, pass.walker.label.run label ≠ .error fault := fun _ _ => nofun
    obtain ⟨place, effect, now, moment, hruns, hfails⟩ := Walker.exists_runs_of_error hfresh h
    obtain ⟨hroot, -, -⟩ := hstart.frame
    obtain ⟨htrie, -⟩ := id hstart
    rename_i trie view begin
    have hmerged := htrie
    rw [trie?_after] at hmerged
    obtain ⟨-, hholds⟩ := holds_of_merged hmerged
    obtain ⟨steps, node, -, hled, hnode, heffect⟩ := hruns.led hholds.deterministic rfl
    have hfault := Effect.fails_iff.mp ⟨moment, hfails⟩
    refine ⟨trie, _, _, steps, place, effect, htrie, hstart, hfault.place?_eq, ?_, fun hpaths =>
      hled.mem_of_paths (fun _ _ _ => rfl) hroot hholds hpaths hnode heffect⟩
    exact ⟨hruns.ne_nil, (hled.forall₂ hroot).length_eq, hled, ⟨node, hnode, heffect⟩,
      ⟨now, hruns, hfault⟩⟩

/-- Adds an empty array to a list, and to what is second in the list something at position 5. -/
def addTwice : List Command :=
  [.register [[("add", .reaction ⟨some fun _ => .null,
    [⟨[.key "list"], some (.append fun _ _ _ => .arr [])⟩,
      ⟨[.key "list", .index 1], some (.insert fun _ _ _ => (5, .keep .null))⟩]⟩)]] none none]

/-- What is second was added just before, and has no position 5. -/
theorem slot_of_reduce_error_addTwice :
    ((after addTwice).reduce (.obj 0 [("list", .arr 1 [.null])]) ⟨"add", .null⟩).run 2 =
      .error (.outOfBounds [.key "list", .index 1] 5 0) ∧
    ∃ trie start steps effect, ∃ pass : Pass,
      (after addTwice).trie? "add" = some trie ∧
      pass.FailsAt start trie steps [.key "list", .index 1] effect
        (.outOfBounds [.key "list", .index 1] 5 0) ∧
      (Path.steps [.key "list", .index 1], effect) ∈ accepted addTwice "add" := by
  have h : ((after addTwice).reduce (.obj 0 [("list", .arr 1 [.null])]) ⟨"add", .null⟩).run 2 =
      .error (.outOfBounds [.key "list", .index 1] 5 0) := rfl
  obtain ⟨trie, pass, start, steps, place, effect, htrie, -, hplace, hfails, hslice⟩ :=
    slot_of_reduce_error h
  obtain rfl := Option.some.inj hplace
  have hpaths : ∀ entry ∈ accepted addTwice "add", ∃ path : Path, entry.1 = path.steps := by
    intro entry hentry
    rcases List.mem_cons.mp hentry with rfl | hentry
    · exact ⟨[.key "list"], rfl⟩
    · obtain rfl := List.mem_singleton.mp hentry
      exact ⟨[.key "list", .index 1], rfl⟩
  exact ⟨h, trie, start, steps, effect, pass, htrie, hfails, hslice hpaths⟩

end Registry

end Reducer
