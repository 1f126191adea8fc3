/-
Effects as they were declared.

The trie of an action type holds effects, and does not say any more where they were
declared; two of them cannot even be told apart.  A `Post` is an effect with the slice it was
declared on and the redirects it came under, and a turn is a post with its number in the
order in which the posts of its type were accepted.  The docket is the trie filled with the
turns.  It differs from the trie of the type in nothing but what it says of an effect, so a
reduction is a walk of the docket, `reduce_eq_docket`, and `Runs` can name the effect that
a reduction runs at a place.

The steps of a post need not be where its slice says.  A slice of one property that is sent
to the empty slice has no steps at all, although registration has refused every empty
slice, and what lies at the top of a trie is never run.
-/
import Reducer.Proofs.Reduction
import Reducer.Proofs.Scopes
import Reducer.Proofs.Walk.Relabel
import Reducer.Proofs.Walk.Runs

namespace Reducer

open Build

/-- A slice has no steps just when it is empty, or one property that is sent to the root. -/
theorem Slice.steps_eq_nil_iff {slice : Slice} {redirects : Option Redirects} :
    slice.steps redirects = [] ↔ slice = [] ∨ ∃ name held, redirects = some held ∧
      slice = [.key name] ∧ Table.get? held name = some [] := by
  unfold Slice.steps
  split
  · rename_i name rest held
    cases hget : Table.get? held name with
    | none => simp [hget]
    | some target => simp [hget, and_comm]
  · rename_i hplain
    rw [List.map_eq_nil_iff]
    refine ⟨Or.inl, fun h => h.resolve_right ?_⟩
    rintro ⟨name, held, hheld, hslice, -⟩
    exact hplain name [] held hslice hheld

namespace Registry

/-- An effect as it was declared and accepted. -/
structure Post where
  /-- The redirects of the call. -/
  redirects : Option Redirects
  /-- The slice it was declared on. -/
  slice : Slice
  /-- What happens there. -/
  effect : Effect

/-- The steps at which the effect lies in the trie of its type. -/
def Post.steps (post : Post) : List Step :=
  post.slice.steps post.redirects

/-- The effects of a reaction, as they were declared. -/
def Registered.posts (reaction : Registered) : List Post :=
  reaction.effects.filterMap fun declared =>
    declared.effect.map fun effect => ⟨reaction.redirects, declared.slice, effect⟩

/-- The effects that were accepted for an action type, in order. -/
def posts (commands : List Command) (type : String) : List Post :=
  ((registered commands).filter (·.type = type)).flatMap Registered.posts

/-- An accepted effect, with the number of those that came before it. -/
abbrev Turn := Post × Nat

/-- The effects that were accepted for an action type, each with its number. -/
def turns (commands : List Command) (type : String) : List Turn :=
  (posts commands type).zipIdx

/-- The trie of an action type, filled with turns. -/
def docket (commands : List Command) (type : String) : Trie Turn :=
  Trie.empty.insertAll ((turns commands type).map fun turn => (turn.1.steps, turn))

/-! ### What was declared -/

variable {commands : List Command} {type : String}

theorem mem_posts {post : Post} :
    post ∈ posts commands type ↔ ∃ reaction ∈ registered commands, reaction.type = type ∧
      ∃ declared ∈ reaction.effects, ∃ effect, declared.effect = some effect ∧
        post = ⟨reaction.redirects, declared.slice, effect⟩ := by
  simp only [posts, Registered.posts, List.mem_flatMap, List.mem_filter, List.mem_filterMap,
    Option.map_eq_some_iff, decide_eq_true_eq]
  constructor
  · rintro ⟨reaction, ⟨hreaction, htype⟩, declared, hdeclared, effect, heffect, rfl⟩
    exact ⟨reaction, hreaction, htype, declared, hdeclared, effect, heffect, rfl⟩
  · rintro ⟨reaction, hreaction, htype, declared, hdeclared, effect, heffect, rfl⟩
    exact ⟨reaction, ⟨hreaction, htype⟩, declared, hdeclared, effect, heffect, rfl⟩

/-- What was accepted for a type are its posts, at their steps. -/
theorem accepted_eq_posts (commands : List Command) (type : String) :
    accepted commands type =
      (posts commands type).map fun post => (post.steps, post.effect) := by
  have hplaced : ∀ reaction : Registered,
      place reaction.redirects reaction.effects =
        reaction.posts.map fun post => (post.steps, post.effect) := by
    intro reaction
    rw [Registered.posts, List.map_filterMap, place]
    refine congrArg (List.filterMap · _) (funext fun declared => ?_)
    rw [Option.map_map]
    rfl
  rw [accepted_eq, posts]
  induction registered commands with
  | nil => rfl
  | cons reaction rest ih =>
      rw [List.flatMap_cons, ih, Registered.placed, List.filter_cons]
      by_cases htype : reaction.type = type
      · simp [htype, hplaced]
      · simp [htype]

/-- No effect was accepted on an empty slice. -/
theorem slice_ne_nil_of_mem_posts {post : Post} (h : post ∈ posts commands type) :
    post.slice ≠ [] := by
  have hany : ∀ command ∈ commands, (fun _ => True) command := fun _ _ => trivial
  have hchecked : ∀ reaction ∈ registered commands, ∀ declared ∈ reaction.effects,
      declared.slice ≠ [] := by
    refine registered_induction (fun _ sofar => ∀ reaction ∈ sofar,
      ∀ declared ∈ reaction.effects, declared.slice ≠ []) hany (List.forall_mem_nil _) ?_
    intro registry next sofar batch redirects group _ hsofar hregister
    obtain ⟨_, hcheck, -⟩ := bind_ok hregister
    obtain ⟨-, hentries⟩ := check_ok hcheck
    refine List.forall_mem_append.mpr ⟨hsofar, fun reaction hreaction => ?_⟩
    obtain ⟨declarations, hdeclarations, name, entry, hentry, rfl⟩ := mem_reactions.mp hreaction
    have hcomplete := complete_of_checkEntry (hentries declarations hdeclarations _ hentry) _ rfl
    exact fun declared hdeclared => (hcomplete.effects declared hdeclared).1
  obtain ⟨reaction, hreaction, -, declared, hdeclared, effect, -, rfl⟩ := mem_posts.mp h
  exact hchecked reaction hreaction declared hdeclared

/-! ### The docket and the trie -/

theorem deterministic_docket (commands : List Command) (type : String) :
    (docket commands type).Deterministic :=
  Trie.deterministic_insertAll Trie.deterministic_empty

/-- A node of the docket holds the turns whose steps end there, in order. -/
theorem values_docket {steps : List Step} {node : Trie Turn}
    (h : (docket commands type).at? steps = some node) :
    node.values =
      (turns commands type).filter fun turn => stepKeys turn.1.steps = stepKeys steps := by
  have hempty : ((Trie.empty.at? steps).getD Trie.empty : Trie Turn).values = [] := by
    cases steps <;> rfl
  rw [Trie.values_at?_insertAll h, hempty, List.nil_append, List.filter_map, List.map_map]
  exact List.map_id _

/-- Every turn lies at its steps. -/
theorem at?_docket {turn : Turn} (h : turn ∈ turns commands type) :
    ∃ node, (docket commands type).at? turn.1.steps = some node ∧ turn ∈ node.values := by
  have hentry : (turn.1.steps, turn) ∈
      (turns commands type).map fun turn => (turn.1.steps, turn) :=
    List.mem_map.mpr ⟨turn, h, rfl⟩
  exact (Trie.holds_insertAll (List.ne_nil_of_mem hentry)).at?_of_mem hentry

/-- The trie of a type is its docket, if there is anything in it. -/
theorem trie?_eq_docket (commands : List Command) (type : String) :
    (after commands).trie? type =
      if posts commands type = [] then none
      else some ((docket commands type).map fun turn => turn.1.effect) := by
  have hentries : (turns commands type).map (fun turn => (turn.1.steps, turn.1.effect)) =
      accepted commands type := by
    rw [accepted_eq_posts, turns, ← List.zipIdx_map_fst 0 (posts commands type), List.map_map,
      List.zipIdx_map_fst]
    rfl
  have hmap : (docket commands type).map (fun turn => turn.1.effect) =
      Trie.empty.insertAll (accepted commands type) := by
    rw [docket, Trie.map_insertAll, List.map_map, ← hentries]
    rfl
  rw [trie?_after, merged, hmap]
  simp only [accepted_eq_posts, List.map_eq_nil_iff]

end Registry

/-- Runs turns where the walk comes by. -/
def Pass.turns (pass : Pass) : Walker Build Registry.Turn :=
  pass.walker.comap fun turn => turn.1.effect

namespace Registry

/-- The reduction of an action runs a turn at a place, on what the slot there holds then. -/
def Runs (commands : List Command) (state : Node) (action : Action) (label : Label) (turn : Turn)
    (place : Path) (now : Option Node) : Prop :=
  ∃ view start,
    (Redirects.view ((after commands).redirects? action.type) action state).run label =
      .ok (view, start) ∧
    (Pass.turns ⟨action, state, view⟩).Runs
      ⟨[], (docket commands action.type).branches, state, start⟩ place turn now

variable {commands : List Command} {type : String}

/-- The view is built in one way only, so there is only one walk to run in. -/
theorem runs_iff {action : Action} {state view : Node} {label start : Label} {turn : Turn}
    {place : Path} {now : Option Node}
    (hview : (Redirects.view ((after commands).redirects? action.type) action state).run label =
      .ok (view, start)) :
    Runs commands state action label turn place now ↔
      (Pass.turns ⟨action, state, view⟩).Runs
        ⟨[], (docket commands action.type).branches, state, start⟩ place turn now := by
  constructor
  · rintro ⟨other, begin, hother, hruns⟩
    rw [hview] at hother
    cases hother
    exact hruns
  · exact fun hruns => ⟨view, start, hview, hruns⟩

/-- **A reduction is a walk of the docket.** -/
theorem reduce_eq_docket {action : Action} {state view : Node} {label start : Label}
    (hposts : posts commands action.type ≠ [])
    (hview : (Redirects.view ((after commands).redirects? action.type) action state).run label =
      .ok (view, start)) :
    ((after commands).reduce state action).run label =
      (Pass.turns ⟨action, state, view⟩).rebuildFrame
        ⟨[], (docket commands action.type).branches, state, start⟩ := by
  rw [reduce, trie?_eq_docket, if_neg hposts]
  dsimp only
  rw [run_bind, hview]
  show ((Pass.mk action state view).walker.walk _ state).run start = _
  rw [Walker.walk_eq, Trie.branches_map, Walker.rebuildFrame, Pass.turns,
    Walker.rebuildFully_comap]

/-- A turn is run at a place to which the walk was led along its steps. -/
theorem led_of_runs {pass : Pass} {start : Frame Turn}
    (hstart : start.branches = (docket commands type).branches) {turn : Turn} {place : Path}
    {now : Option Node} (h : pass.turns.Runs start place turn now) :
    turn ∈ turns commands type ∧ ∃ steps, steps ≠ [] ∧
      stepKeys turn.1.steps = stepKeys steps ∧
      pass.turns.Led start (docket commands type) steps place := by
  obtain ⟨steps, node, hne, hled, hat, hturn⟩ := h.led (deterministic_docket commands type) hstart
  rw [values_docket hat] at hturn
  obtain ⟨hmem, hkeys⟩ := List.mem_filter.mp hturn
  exact ⟨hmem, steps, hne, of_decide_eq_true hkeys, hled⟩

/--
**What lies at the top of a trie is what was declared on a property that is sent to the root.**
Only these effects have no steps, although none of their slices is empty; a reduction runs them
nowhere.  Every other accepted effect lies further down.
-/
theorem effects_at_top (commands : List Command) (type : String) :
    ((after commands).trie? type = none ↔ posts commands type = []) ∧
    (∀ trie, (after commands).trie? type = some trie →
      trie.values = ((posts commands type).filter (·.steps.isEmpty)).map (·.effect) ∧
      ∀ post ∈ posts commands type, ∃ node, trie.at? post.steps = some node ∧
        post.effect ∈ node.values) ∧
    (∀ post ∈ posts commands type, post.slice ≠ [] ∧
      (post.steps = [] ↔ ∃ name held, post.redirects = some held ∧ post.slice = [.key name] ∧
        Table.get? held name = some [])) ∧
    ∀ state action label turn place now, turn.1.steps = [] →
      ¬Runs commands state action label turn place now := by
  refine ⟨?_, ?_, fun post hpost => ?_, ?_⟩
  · rw [trie?_eq_docket]
    split <;> simp_all
  · intro trie htrie
    rw [trie?_after] at htrie
    obtain ⟨-, hholds⟩ := holds_of_merged htrie
    rw [accepted_eq_posts] at hholds
    refine ⟨?_, fun post hpost => ?_⟩
    · rw [hholds.values_eq [] trie rfl, List.filter_map, List.map_map]
      refine congrArg (List.map _) (List.filter_congr fun post _ => ?_)
      rw [Bool.eq_iff_iff]
      simp [stepKeys]
    · exact hholds.at?_of_mem (List.mem_map.mpr ⟨post, hpost, rfl⟩)
  · have hslice := slice_ne_nil_of_mem_posts hpost
    exact ⟨hslice, Slice.steps_eq_nil_iff.trans (or_iff_right hslice)⟩
  · rintro state action label turn place now hsteps ⟨view, start, -, hruns⟩
    obtain ⟨-, steps, hne, hkeys, -⟩ := led_of_runs rfl hruns
    rw [hsteps] at hkeys
    exact hne (List.map_eq_nil_iff.mp hkeys.symm)

/-- Deleting `a` where `a` is sent to the root is accepted, and lies at the top. -/
theorem effects_at_top_of_empty_redirect :
    ∃ registry trie, Registry.empty.register
        [[("drop", .reaction ⟨some fun _ => .null, [⟨[.key "a"], some .delete⟩]⟩)]]
        (some [("a", [])]) none = .ok registry ∧
      registry.trie? "drop" = some trie ∧ trie.values = [.delete] :=
  ⟨_, _, rfl, rfl, rfl⟩

end Registry

end Reducer
