/-
Where redirected slices run.

An effect is declared on a property, and redirects send the property elsewhere.  The walk goes
there along the steps that came of it, the callbacks look there through the view, and the two
ought to be in the same place.

For slices of names they are.  A reduction that succeeds runs the effect just where the spliced
slice leads, if there is anything, and the first effect to run there gets the node that the
view shows.  It takes no more than that no other slice of the type ends on the way, since what
runs on the way may put another node in place: `runsAtAim_of_first`.
-/
import Reducer.Proofs.Docket
import Reducer.Proofs.Splice
import Reducer.Proofs.Walk.Literal

namespace Reducer

open Build

/-! ### Redirects that lead alike -/

theorem Slice.Literal.eq_of_ident {slice : Slice} (h : slice.Literal) :
    ∀ {other : Slice}, slice.map Part.ident = other.map Part.ident → slice = other := by
  induction slice with
  | nil =>
      intro other hsame
      exact (List.map_eq_nil_iff.mp hsame.symm).symm
  | cons part rest ih =>
      intro other hsame
      obtain ⟨hpart, hrest⟩ := List.forall_mem_cons.mp h
      cases other with
      | nil => cases hsame
      | cons first others =>
          obtain ⟨hident, hidents⟩ := List.cons.inj hsame
          have hfirst : part = first := by
            cases part with
            | predicate test => cases hpart
            | _ =>
                cases first <;> cases hident
                rfl
          rw [hfirst, ih hrest hidents]

theorem Redirects.Agree.get? {held : Redirects} {redirects : Option Redirects}
    (h : Agree (some held) redirects) {name : String} {target : Slice}
    (htarget : Table.get? held name = some target) :
    ∃ other found, redirects = some other ∧ Table.get? other name = some found ∧
      target.map Part.ident = found.map Part.ident := by
  cases redirects with
  | none => cases h
  | some other =>
      have hsame : held.target? name = other.target? name := congrFun (Option.some.inj h) name
      rw [target?, htarget, target?, Option.map_some] at hsame
      obtain ⟨found, hfound, hidents⟩ := Option.map_eq_some_iff.mp hsame.symm
      exact ⟨other, found, rfl, hfound, hidents.symm⟩

/-- Under redirects that lead alike a slice is spliced alike. -/
theorem Slice.ident_spliced {redirects other : Option Redirects}
    (h : Redirects.Agree redirects other) (slice : Slice) :
    (slice.spliced redirects).map Part.ident = (slice.spliced other).map Part.ident := by
  rcases slice.redirected_or redirects with
    ⟨name, rest, held, target, rfl, rfl, hget⟩ | ⟨hplain, -, -⟩
  · obtain ⟨other, found, rfl, hfound, hsame⟩ := h.get? hget
    rw [spliced_of_get? hget, spliced_of_get? hfound, List.map_append, List.map_append, hsame]
  · rcases slice.redirected_or other with
      ⟨name, rest, held, target, rfl, rfl, hget⟩ | ⟨hothers, -, -⟩
    · obtain ⟨other, found, rfl, hfound, hsame⟩ := h.symm.get? hget
      rw [spliced_of_get? hget, spliced_of_get? hfound, List.map_append, List.map_append, hsame]
    · rw [hplain, hothers]

namespace Registry

variable {commands : List Command} {action : Action} {state next : Node} {label after : Label}
  {turn : Turn} {type : String}

/-- What was accepted for a type came under redirects that lead as those kept for it. -/
theorem agree_of_mem_turns (hcommands : ∀ command ∈ commands, command.Distinct)
    (h : turn ∈ turns commands type) :
    Redirects.Agree ((Registry.after commands).redirects? type) turn.1.redirects := by
  obtain ⟨reaction, hreaction, htype, _, -, _, -, hpost⟩ :=
    mem_posts.mp (List.fst_mem_of_mem_zipIdx h)
  rw [hpost]
  exact ((typeKept_after hcommands type).agree reaction hreaction htype).2

/-! ### Slices of names -/

/-- Every slice of the type, and every slice its redirects lead along, consists of names. -/
structure NamesOnly (commands : List Command) (type : String) : Prop where
  slices : ∀ post ∈ posts commands type, post.slice.Literal
  redirects : ∀ held, (Registry.after commands).redirects? type = some held →
    ∀ entry ∈ held, Slice.Literal entry.2

/-- The place that an effect of the type is for: that of its slice, spliced. -/
def aim (commands : List Command) (type : String) (turn : Turn) : Path :=
  (turn.1.slice.spliced ((Registry.after commands).redirects? type)).path

theorem steps_eq_aim (hcommands : ∀ command ∈ commands, command.Distinct)
    (hnames : NamesOnly commands type) (h : turn ∈ turns commands type) :
    turn.1.steps = (aim commands type turn).steps := by
  have hliteral := (hnames.slices _ (List.fst_mem_of_mem_zipIdx h)).spliced hnames.redirects
  have hspliced := hliteral.eq_of_ident
    (Slice.ident_spliced (agree_of_mem_turns hcommands h) turn.1.slice)
  rw [aim, hspliced]
  exact Slice.Literal.steps_eq (hspliced ▸ hliteral)

variable {pass : Pass} {start : Frame Turn}

theorem begins_docket (hcommands : ∀ command ∈ commands, command.Distinct)
    (hnames : NamesOnly commands type) (hturn : turn ∈ turns commands type)
    (hdistinct : state.Distinct) :
    pass.turns.Begins (docket commands type)
      ⟨[], (docket commands type).branches, state, label⟩ := by
  have hentries : (turns commands type).map (fun turn => (turn.1.steps, turn)) ≠ [] :=
    List.ne_nil_of_mem (List.mem_map.mpr ⟨turn, hturn, rfl⟩)
  refine ⟨fun _ _ _ => rfl, (Trie.holds_insertAll hentries).literalAt ?_, rfl, rfl, hdistinct⟩
  intro entry hentry
  obtain ⟨other, hother, rfl⟩ := List.mem_map.mp hentry
  exact ⟨_, steps_eq_aim hcommands hnames hother⟩

/-- Where all slices are of names, an effect runs nowhere but where it is aimed. -/
theorem eq_aim_of_runs (hcommands : ∀ command ∈ commands, command.Distinct)
    (hnames : NamesOnly commands type)
    (hbegins : pass.turns.Begins (docket commands type) start) {place : Path} {now : Option Node}
    (h : pass.turns.Runs start place turn now) :
    turn ∈ turns commands type ∧ place = aim commands type turn := by
  obtain ⟨hturn, steps, -, hkeys, hled⟩ := led_of_runs hbegins.branches h
  rw [steps_eq_aim hcommands hnames hturn] at hkeys
  exact ⟨hturn, hled.place_eq hbegins.names hbegins.path hkeys.symm⟩

/-- Where no slice ends on the way to a place, nothing is run on the way. -/
theorem quiet_of_first (hcommands : ∀ command ∈ commands, command.Distinct)
    (hnames : NamesOnly commands type)
    (hbegins : pass.turns.Begins (docket commands type) start)
    (hturn : turn ∈ turns commands type)
    (hfirst : ∀ other ∈ turns commands type, other.1.steps <+: turn.1.steps →
      other.1.steps = turn.1.steps) :
    ∀ acted, acted <+: aim commands type turn → acted ≠ aim commands type turn →
      ¬pass.turns.ActsAt start acted := by
  rintro acted hacted hne ⟨branch, hleads, hvalues⟩
  obtain ⟨other, -, now, hruns⟩ := hleads.runs hvalues
  obtain ⟨hother, rfl⟩ := eq_aim_of_runs hcommands hnames hbegins hruns
  refine hne (Path.steps_injective ?_)
  rw [← steps_eq_aim hcommands hnames hother, ← steps_eq_aim hcommands hnames hturn]
  refine hfirst other hother ?_
  rw [steps_eq_aim hcommands hnames hother, steps_eq_aim hcommands hnames hturn]
  exact hacted.map _

theorem pairwise_turns (commands : List Command) (type : String) :
    (turns commands type).Pairwise fun turn later => turn.2 < later.2 := by
  rw [← List.pairwise_map (f := Prod.snd) (R := (· < ·)), turns, List.zipIdx_map_snd]
  exact List.pairwise_lt_range'

/-- Of turns in order, the first gets what the slot holds at first. -/
theorem eq_of_least {path : Path} {turns : List Turn} {current now : Option Node}
    (hordered : turns.Pairwise fun turn later => turn.2 < later.2)
    (h : pass.turns.Hands path turns current label turn now)
    (hleast : ∀ other ∈ turns, turn.2 ≤ other.2) : now = current := by
  cases h with
  | here => rfl
  | later _ hrest =>
      have hlater := (List.pairwise_cons.mp hordered).1 turn hrest.mem
      exact absurd (hleast _ List.mem_cons_self) (Nat.not_le_of_lt hlater)

/--
The reduction runs the effect where it is aimed, if there is anything, and nowhere else; and
if no effect runs there before it, on the node that is there.
-/
def RunsAtAim (commands : List Command) (state : Node) (action : Action) (label : Label)
    (turn : Turn) : Prop :=
  ((∃ place now, Runs commands state action label turn place now) ↔
    (state.at? (aim commands action.type turn)).isSome = true) ∧
  ∀ place now, Runs commands state action label turn place now →
    place = aim commands action.type turn ∧
    ((∀ other held, Runs commands state action label other place held → turn.2 ≤ other.2) →
      now = state.at? place)

/-- An effect on a slice of names is run where it is aimed, if no other slice ends on the way. -/
theorem runsAtAim_of_first (hcommands : ∀ command ∈ commands, command.Distinct)
    (hnames : NamesOnly commands action.type) (hdistinct : state.Distinct)
    (hrun : ((Registry.after commands).reduce state action).run label = .ok (next, after))
    (hturn : turn ∈ turns commands action.type) (hsteps : turn.1.steps ≠ [])
    (hfirst : ∀ other ∈ turns commands action.type, other.1.steps <+: turn.1.steps →
      other.1.steps = turn.1.steps) :
    RunsAtAim commands state action label turn := by
  obtain ⟨view, begin, hview, -, -⟩ :=
    Redirects.view_run ((Registry.after commands).redirects? action.type) action state label
  have hposts : posts commands action.type ≠ [] :=
    List.ne_nil_of_mem (List.fst_mem_of_mem_zipIdx hturn)
  rw [reduce_eq_docket hposts hview] at hrun
  have hbegins : (Pass.turns ⟨action, state, view⟩).Begins (docket commands action.type)
      ⟨[], (docket commands action.type).branches, state, begin⟩ :=
    begins_docket hcommands hnames hturn hdistinct
  have hquiet := quiet_of_first hcommands hnames hbegins hturn hfirst
  have hsame := steps_eq_aim hcommands hnames hturn
  have haim : aim commands action.type turn ≠ [] := by
    intro hnil
    rw [hsame, hnil] at hsteps
    exact hsteps rfl
  simp only [RunsAtAim, runs_iff hview]
  refine ⟨⟨?_, fun h => ?_⟩, fun place now hruns => ?_⟩
  · rintro ⟨place, now, hruns⟩
    obtain ⟨-, rfl⟩ := eq_aim_of_runs hcommands hnames hbegins hruns
    obtain ⟨node, -, -, hnode, -, -⟩ := hbegins.at?_of_runs hruns hquiet
    exact Option.isSome_iff_exists.mpr ⟨node, hnode⟩
  · obtain ⟨node, hnode⟩ := Option.isSome_iff_exists.mp h
    obtain ⟨trie, htrie, hmem⟩ := at?_docket hturn
    obtain ⟨now, hruns⟩ := hbegins.runs_of_at? hrun haim (hsame ▸ htrie) hnode hquiet hmem
    exact ⟨_, now, hruns⟩
  · obtain ⟨-, rfl⟩ := eq_aim_of_runs hcommands hnames hbegins hruns
    refine ⟨rfl, fun hleast => ?_⟩
    obtain ⟨node, trie, start, hnode, htrie, hhands⟩ := hbegins.at?_of_runs hruns hquiet
    have hordered : trie.values.Pairwise fun turn later => turn.2 < later.2 := by
      rw [values_docket htrie]
      exact (pairwise_turns commands action.type).filter _
    -- All that lies at the place is run there, so this one is the least of all.
    refine (eq_of_least hordered hhands fun other hother => ?_).trans hnode.symm
    obtain ⟨held, hheld⟩ := hbegins.runs_of_at? hrun haim htrie hnode hquiet hother
    exact hleast other held hheld

/--
**The steps of a slice and the view lead to the same node.**  What a property and names after
it lead to in the view is what the spliced slice leads to at the root, unless the property is
alone and is sent to nothing, of which the view shows null.  The steps are those of the spliced
slice, and the predicates that see the state are those that came from redirects.  And where
all slices of an action are of names and its reduction succeeds, an effect that has steps
and no slice ending on the way runs if and only if the root has a node at those steps, and
the first to run there is run on that node.
-/
theorem steps_agree_with_view :
    (∀ (redirects : Option Redirects) (action : Action) (root label : Label)
        (fields : List (String × Node)) (name : String) (rest : Slice), rest.Literal →
      Redirects.Shows redirects fields name →
      ∃ view after,
        (Redirects.view redirects action (.obj root fields)).run label = .ok (view, after) ∧
        (Slice.resolve (.key name :: rest) action view =
            (Slice.spliced (.key name :: rest) redirects).resolve action (.obj root fields) ∨
          rest = [] ∧ Slice.resolve (.key name :: rest) action view = some .null ∧
            ∃ held target, redirects = some held ∧ Table.get? held name = some target ∧
              target.resolve action (.obj root fields) = none)) ∧
    (∀ (slice : Slice) (redirects : Option Redirects), slice.steps redirects =
      (slice.spliced redirects).zipIdx.map fun part =>
        Step.ofPart (part.2 < slice.borrowed redirects) part.1) ∧
    (∀ (commands : List Command) (action : Action) (state next : Node) (label after : Label),
      (∀ command ∈ commands, command.Distinct) → NamesOnly commands action.type →
      state.Distinct →
      ((Registry.after commands).reduce state action).run label = .ok (next, after) →
      ∀ turn ∈ turns commands action.type,
        turn.1.steps = (aim commands action.type turn).steps ∧
        (turn.1.slice.spliced ((Registry.after commands).redirects? action.type)).resolve action
          state = state.at? (aim commands action.type turn) ∧
        (turn.1.steps ≠ [] →
          (∀ other ∈ turns commands action.type, other.1.steps <+: turn.1.steps →
            other.1.steps = turn.1.steps) →
          RunsAtAim commands state action label turn)) := by
  refine ⟨?_, Slice.steps_eq, ?_⟩
  · intro redirects action root label fields name rest hrest hname
    obtain ⟨view, after, hview, -, -⟩ :=
      Redirects.view_run redirects action (.obj root fields) label
    exact ⟨view, after, hview, Redirects.resolve_view hrest hname hview⟩
  · intro commands action state next label after hcommands hnames hdistinct hrun turn hturn
    have hliteral := (hnames.slices _ (List.fst_mem_of_mem_zipIdx hturn)).spliced hnames.redirects
    exact ⟨steps_eq_aim hcommands hnames hturn, hliteral.resolveFrom_eq state,
      runsAtAim_of_first hcommands hnames hdistinct hrun hturn⟩

/-- One reaction, which drops a field of whatever the cursor is on: the second of a list. -/
def cursor : List Command :=
  [.register [[("drop", .reaction ⟨some fun _ => .null,
      [⟨[.key "cursor", .key "x"], some .delete⟩]⟩)]]
    (some [("cursor", [.key "list", .index 1])]) none]

/-- A state with a list of two, and a cursor. -/
def listOfTwo : Node :=
  .obj 0 [("cursor", .null),
    ("list", .arr 1 [.obj 2 [("x", .bool true)], .obj 3 [("x", .bool false)]])]

/-- The effect of the reaction, as it was declared. -/
def dropAtCursor : Turn :=
  (⟨some [("cursor", [.key "list", .index 1])], [.key "cursor", .key "x"], .delete⟩, 0)

/-- Dropping `cursor.x` is run on `list[1].x`, which is what `cursor.x` is in the view. -/
theorem steps_agree_with_view_cursor :
    Runs cursor listOfTwo ⟨"drop", .null⟩ 4 dropAtCursor [.key "list", .index 1, .key "x"]
        (some (.bool false)) ∧
      ∃ view after,
        (Redirects.view ((Registry.after cursor).redirects? "drop") ⟨"drop", .null⟩ listOfTwo).run 4
          = .ok (view, after) ∧
        dropAtCursor.1.slice.resolve ⟨"drop", .null⟩ view = some (.bool false) := by
  obtain ⟨hview, -, hruns⟩ := steps_agree_with_view
  have hcommands : ∀ command ∈ cursor, command.Distinct := by
    intro command hcommand
    rw [List.mem_singleton.mp hcommand]
    rintro held hheld
    cases hheld
    exact List.nodup_singleton _
  have hturns : turns cursor "drop" = [dropAtCursor] := rfl
  have hnames : NamesOnly cursor "drop" := by
    refine ⟨fun post hpost => ?_, fun held hheld entry hentry => ?_⟩
    · rw [show posts cursor "drop" = [dropAtCursor.1] from rfl] at hpost
      rw [List.mem_singleton.mp hpost]
      simp [dropAtCursor, Slice.Literal, Part.seg?]
    · cases hheld
      rw [List.mem_singleton.mp hentry]
      simp [Slice.Literal, Part.seg?]
  have hdistinct : listOfTwo.Distinct := by
    simp [listOfTwo, Node.Distinct, Node.DistinctFields, Node.DistinctItems, Table.Distinct,
      Table.keys]
  have hmem : dropAtCursor ∈ turns cursor "drop" := by
    rw [hturns]
    exact List.mem_singleton_self _
  obtain ⟨-, -, haimed⟩ := hruns cursor ⟨"drop", .null⟩ listOfTwo _ 4 _ hcommands hnames hdistinct
    rfl dropAtCursor hmem
  obtain ⟨hiff, hplace⟩ := haimed (List.cons_ne_nil _ _) fun other hother _ => by
    rw [hturns] at hother
    rw [List.mem_singleton.mp hother]
  obtain ⟨place, now, hnow⟩ := hiff.mpr rfl
  obtain ⟨rfl, hfirst⟩ := hplace place now hnow
  obtain rfl := hfirst fun _ _ _ => Nat.zero_le _
  refine ⟨hnow, ?_⟩
  obtain ⟨view, after, hrun, hsame | ⟨hnil, -⟩⟩ := hview
    ((Registry.after cursor).redirects? "drop") ⟨"drop", .null⟩ 0 4
    [("cursor", .null), ("list", .arr 1 [.obj 2 [("x", .bool true)], .obj 3 [("x", .bool false)]])]
    "cursor" [.key "x"] (by simp [Slice.Literal, Part.seg?]) (Or.inl rfl)
  · exact ⟨view, after, hrun, hsame⟩
  · cases hnil

end Registry

end Reducer
