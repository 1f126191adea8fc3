/-
Redirects with predicates.

A predicate in redirects chooses an instance: one of many lists, say, for an effect that was
declared on a single one.  The two readings of redirects choose differently.  The view takes
the first child the predicate holds of and goes on from there, or gives up; the walk follows
every child the predicate holds of, and asks when the child's turn has come and other effects
may have changed it.

So an effect on a redirected property is run at or below places that the parts of the target
accept one by one, and of these there may be many.  It is run within the one instance of the
view if the target never leads to two places, and if no effect that was declared elsewhere
runs on the way there.  Neither condition can be left out.

Predicates are compared by identity, so what is said of the redirects kept for a type is said
of those each call came with only if a predicate's identity settles what was declared.
-/
import Reducer.Proofs.Recording
import Reducer.Proofs.Redirected
import Reducer.Proofs.Walk.Content

namespace Reducer

open Build

/-! ### What identities settle -/

/-- What was declared under each identity. -/
abbrev Mint := Nat → Test

variable {mint : Mint}

/-- A predicate is what was declared under its identity. -/
def Predicate.Minted (mint : Mint) (predicate : Predicate) : Prop :=
  predicate.test = mint predicate.id

/-- The predicate that a part is, if it is one, is minted. -/
def Part.Minted (mint : Mint) : Part → Prop
  | predicate test => test.Minted mint
  | _ => True

/-- The predicate of a step, if it has one, is minted. -/
def Step.Minted (mint : Mint) : Step → Prop
  | predicate test _ => test.Minted mint
  | literal _ => True

theorem Predicate.Minted.eq_of_id {test other : Predicate} (h : test.Minted mint)
    (hother : other.Minted mint) (hid : test.id = other.id) : test = other := by
  obtain ⟨id, declared⟩ := test
  obtain ⟨_, others⟩ := other
  cases hid
  exact congrArg _ (Eq.trans h (Eq.symm hother))

theorem Part.Minted.eq_of_ident {part other : Part} (h : part.Minted mint)
    (hother : other.Minted mint) (hident : part.ident = other.ident) : part = other := by
  cases part with
  | predicate test =>
      cases other with
      | predicate found => exact congrArg _ (h.eq_of_id hother (Sum.inr.inj hident))
      | _ => cases hident
  | _ =>
      cases other <;> cases hident
      rfl

theorem Step.Minted.eq_of_key {step other : Step} (h : step.Minted mint)
    (hother : other.Minted mint) (hkey : step.key = other.key) : step = other := by
  cases step with
  | predicate test unmapped =>
      cases other with
      | predicate found others =>
          obtain ⟨hid, hunmapped⟩ := Prod.mk.inj (Sum.inr.inj hkey)
          rw [h.eq_of_id hother hid, hunmapped]
      | literal seg => cases hkey
  | literal seg => exact (eq_literal_of_key hkey.symm).symm

/-- Lists of things that are settled by what they are compared by are compared as lists. -/
theorem eq_of_map_eq {β γ : Type} {P : β → Prop} {f : β → γ}
    (hf : ∀ {a b}, P a → P b → f a = f b → a = b) {left : List β} (hleft : ∀ item ∈ left, P item) :
    ∀ {right : List β}, (∀ item ∈ right, P item) → left.map f = right.map f → left = right := by
  induction left with
  | nil => exact fun _ hsame => (List.map_eq_nil_iff.mp hsame.symm).symm
  | cons first rest ih =>
      intro right hright hsame
      cases right with
      | nil => cases hsame
      | cons other others =>
          obtain ⟨hfirst, hrest⟩ := List.forall_mem_cons.mp hleft
          obtain ⟨hother, hothers⟩ := List.forall_mem_cons.mp hright
          obtain ⟨hkey, hkeys⟩ := List.cons.inj hsame
          rw [hf hfirst hother hkey, ih hrest hothers hkeys]

theorem Step.minted_ofPart {part : Part} (h : part.Minted mint) (unmapped : Bool) :
    (ofPart unmapped part).Minted mint := by
  cases part with
  | predicate test => exact h
  | _ => trivial

namespace Registry

/-- All predicates of a call are minted, those of its redirects and those of its slices. -/
def Command.Minted (mint : Mint) : Command → Prop
  | .register batch redirects _ =>
      (∀ held, redirects = some held → ∀ entry ∈ held, ∀ part ∈ entry.2, part.Minted mint) ∧
      ∀ declarations ∈ batch, ∀ name reaction, (name, Entry.reaction reaction) ∈ declarations →
        ∀ declared ∈ reaction.effects, ∀ part ∈ declared.slice, part.Minted mint
  | .clear => True

/-- All predicates a reaction was registered with are minted. -/
structure Registered.Minted (mint : Mint) (reaction : Registered) : Prop where
  redirects : ∀ held, reaction.redirects = some held → ∀ entry ∈ held, ∀ part ∈ entry.2,
    part.Minted mint
  slices : ∀ declared ∈ reaction.effects, ∀ part ∈ declared.slice, part.Minted mint

variable {commands : List Command} {type : String}

theorem minted_of_mem_registered (hcommands : ∀ command ∈ commands, command.Minted mint) :
    ∀ reaction ∈ registered commands, reaction.Minted mint := by
  refine registered_induction (fun _ sofar => ∀ reaction ∈ sofar, reaction.Minted mint) hcommands
    (List.forall_mem_nil _) ?_
  rintro registry next sofar batch redirects group ⟨hredirects, hslices⟩ hsofar -
  refine List.forall_mem_append.mpr ⟨hsofar, fun reaction hreaction => ?_⟩
  obtain ⟨declarations, hdeclarations, name, declared, hmem, rfl⟩ := mem_reactions.mp hreaction
  exact ⟨hredirects, hslices declarations hdeclarations name declared hmem⟩

/-- What is kept for a type after a batch was kept before or came with the batch. -/
theorem redirects?_of_register {registry next : Registry} {batch : List Declarations}
    {redirects : Option Redirects} {group : Option String}
    (hregister : registry.register batch redirects group = .ok next) {held : Redirects}
    (hheld : next.redirects? type = some held) :
    registry.redirects? type = some held ∨ redirects = some held := by
  by_cases hdeclares : Declares batch group type
  · rw [redirects?_register hregister hdeclares] at hheld
    rcases Option.or_eq_some_iff.mp hheld with hgiven | ⟨-, hold⟩
    · exact Or.inr hgiven
    · exact Or.inl hold
  · rw [(sameFor_register hregister hdeclares).redirects] at hheld
    exact Or.inl hheld

theorem minted_of_redirects? (hcommands : ∀ command ∈ commands, command.Minted mint) :
    ∀ held, (after commands).redirects? type = some held →
      ∀ entry ∈ held, ∀ part ∈ entry.2, part.Minted mint := by
  refine registered_induction (fun registry _ => ∀ held, registry.redirects? type = some held →
    ∀ entry ∈ held, ∀ part ∈ entry.2, part.Minted mint) hcommands (by simp [empty, redirects?]) ?_
  rintro registry next sofar batch redirects group ⟨hredirects, -⟩ hregistry hregister held hheld
  rcases redirects?_of_register hregister hheld with hold | hgiven
  · exact hregistry held hold
  · exact hredirects held hgiven

theorem minted_of_mem_turns (hcommands : ∀ command ∈ commands, command.Minted mint) {turn : Turn}
    (hturn : turn ∈ turns commands type) : ∀ step ∈ turn.1.steps, step.Minted mint := by
  obtain ⟨reaction, hreaction, -, declared, hdeclared, effect, -, hpost⟩ :=
    mem_posts.mp (List.fst_mem_of_mem_zipIdx hturn)
  obtain ⟨hredirects, hslices⟩ := minted_of_mem_registered hcommands reaction hreaction
  rw [hpost, Post.steps, Slice.steps_eq]
  intro step hstep
  obtain ⟨⟨part, position⟩, hpart, rfl⟩ := List.mem_map.mp hstep
  refine Step.minted_ofPart ?_ _
  rcases Slice.mem_spliced (List.fst_mem_of_mem_zipIdx hpart) with
    hown | ⟨held, hheld, entry, hentry, hborrowed⟩
  · exact hslices declared hdeclared part hown
  · exact hredirects held hheld entry hentry part hborrowed

/-- The steps of an effect on a redirected property, in terms of the redirects that are kept. -/
theorem steps_of_redirected (hcommands : ∀ command ∈ commands, command.Distinct)
    (hminted : ∀ command ∈ commands, command.Minted mint) {turn : Turn}
    (hturn : turn ∈ turns commands type) {held : Redirects} {name : String} {target rest : Slice}
    (hheld : (after commands).redirects? type = some held)
    (htarget : Table.get? held name = some target) (hslice : turn.1.slice = .key name :: rest) :
    turn.1.steps = target.map (Step.ofPart true) ++ rest.map (Step.ofPart false) := by
  have hagree := agree_of_mem_turns hcommands hturn
  rw [hheld] at hagree
  obtain ⟨other, found, hother, hfound, hsame⟩ := hagree.get? htarget
  obtain ⟨reaction, hreaction, -, _, -, _, -, hpost⟩ :=
    mem_posts.mp (List.fst_mem_of_mem_zipIdx hturn)
  obtain ⟨hredirects, -⟩ := minted_of_mem_registered hminted reaction hreaction
  have hgiven : reaction.redirects = some other := by
    rw [← hother, hpost]
  have htargets : target = found :=
    eq_of_map_eq Part.Minted.eq_of_ident
      (minted_of_redirects? hminted held hheld _ (Table.mem_of_get? htarget))
      (hredirects other hgiven _ (Table.mem_of_get? hfound)) hsame
  rw [Post.steps, hslice, hother, htargets]
  simp only [Slice.steps, hfound]

end Registry

/-! ### What is true of every step on the way -/

namespace Walker

variable {α : Type} {walker : Walker Build α} {start frame : Frame α} {P : Step → Prop}
  {Q : α → Prop}

theorem Enters.everyBranch (h : walker.Enters start frame)
    (hstart : Trie.EveryBranch P Q start.branches) : Trie.EveryBranch P Q frame.branches := by
  induction h with
  | refl => exact hstart
  | tail _ hlast ih =>
      obtain ⟨-, hsettle, -⟩ := hlast
      exact everyBranch_below ih hsettle

theorem Led.forall_steps (hstart : Trie.EveryBranch P Q start.branches) {top : Trie α}
    {steps : List Step} {place : Path} (h : walker.Led start top steps place) :
    ∀ step ∈ steps, P step := by
  induction h with
  | nil => exact List.forall_mem_nil _
  | snoc _ hleads _ ih =>
      obtain ⟨frame, child, label, henters, -, -, hturn⟩ := hleads.exists_frame
      have hlast := (henters.everyBranch hstart _ hturn.mem).1
      exact List.forall_mem_append.mpr ⟨ih, List.forall_mem_singleton.mpr hlast⟩

end Walker

/-! ### Instances -/

/-- Whether a part means a child: what the child is, and its name. -/
def Part.accepts (part : Part) (action : Action) (root value : Node) (seg : Seg) : Bool :=
  match part with
  | key name => Seg.key name == seg
  | index position => Seg.index position == seg
  | predicate test => test.holds action root value seg

/-- From a node down, part by part, a slice accepts what is on the way to a place. -/
def Slice.Trail (action : Action) (root node : Node) (slice : Slice) (place : Path)
    (found : Node) : Prop :=
  Node.Trail (fun part value seg => Part.accepts part action root value seg = true) node slice
    place found

/-- No part of the slice, come to along those before it, accepts two children. -/
def Slice.Single (action : Action) (root : Node) (slice : Slice) : Prop :=
  ∀ front : Slice, front <+: slice → ∀ place other found held,
    front.Trail action root root place found → front.Trail action root root other held →
    place = other

variable {action : Action} {root : Node}

theorem Part.firstChild?_eq (holds : Node → Seg → Bool) (node : Node) :
    firstChild? holds node = (node.slots.find? fun slot => holds slot.2 slot.1).map (·.2) := by
  cases node with
  | arr label items =>
      rw [firstChild?, Node.slots, List.find?_map, Option.map_map]
      rfl
  | obj label fields =>
      rw [firstChild?, Node.slots, List.find?_map, Option.map_map]
      rfl
  | _ => rfl

/-- A part that accepts some child resolves to one that it accepts. -/
theorem Part.resolve_of_accepts {part : Part} {node child : Node} {seg : Seg}
    (hdistinct : node.Distinct) (hslot : (seg, child) ∈ node.slots)
    (haccepts : part.accepts action root child seg = true) :
    ∃ first found, (first, found) ∈ node.slots ∧ part.accepts action root found first = true ∧
      part.resolve action root node = some found := by
  have hchild := Node.child?_of_mem_slots hdistinct hslot
  cases part with
  | predicate test =>
      cases hfound : node.slots.find? fun slot => test.holds action root slot.2 slot.1 with
      | none => exact absurd haccepts (List.find?_eq_none.mp hfound _ hslot)
      | some slot =>
          have hholds := List.find?_some hfound
          refine ⟨slot.1, slot.2, List.mem_of_find?_eq_some hfound, hholds, ?_⟩
          rw [resolve, firstChild?_eq, hfound]
          rfl
  | _ =>
      obtain rfl := eq_of_beq haccepts
      exact ⟨_, child, hslot, haccepts, hchild⟩

/-- A slice leads to one place at most if each of its parts accepts one name at most. -/
theorem Slice.single_of_names {slice : Slice}
    (h : ∀ part ∈ slice, ∀ value other seg name, Part.accepts part action root value seg = true →
      Part.accepts part action root other name = true → seg = name) : slice.Single action root := by
  have hplaces : ∀ {front : Slice}, (∀ part ∈ front, part ∈ slice) →
      ∀ {node made found held : Node} {place other : Path},
        front.Trail action root node place found → front.Trail action root made other held →
        place = other := by
    intro front
    induction front with
    | nil =>
        rintro - _ _ _ _ _ _ ⟨⟩ ⟨⟩
        rfl
    | cons part rest ih =>
        intro hfront node made found held place other hplace hother
        obtain ⟨hpart, hparts⟩ := List.forall_mem_cons.mp hfront
        cases hplace with
        | cons _ haccepts hrest =>
            cases hother with
            | cons _ hothers hothersRest =>
                rw [h part hpart _ _ _ _ haccepts hothers, ih hparts hrest hothersRest]
  exact fun front hfront _ _ _ _ => hplaces fun part hpart => hfront.subset hpart

/-- **A slice that leads to one place resolves to what is there.** -/
theorem Slice.Single.resolve_eq {slice : Slice} (h : slice.Single action root)
    (hdistinct : root.Distinct) {place : Path} {found : Node}
    (htrail : slice.Trail action root root place found) :
    slice.resolve action root = some found := by
  have hrest : ∀ {node last : Node} {rest : Slice} {path : Path},
      rest.Trail action root node path last →
      ∀ {front : Slice} {before : Path}, front ++ rest = slice →
        front.Trail action root root before node →
        resolveFrom action root node rest = some last := by
    intro node last rest path hrest
    induction hrest with
    | nil => exact fun _ _ => rfl
    | @cons node part rest seg child path last hslot haccepts hdeeper ih =>
        intro front before hslice hfront
        have hnode := Node.inherited_distinct.at? hdistinct (hfront.at?_eq hdistinct)
        obtain ⟨first, other, hother, hsame, hresolve⟩ :=
          Part.resolve_of_accepts hnode hslot haccepts
        have hslice : front ++ [part] ++ rest = slice := by
          rw [List.append_assoc]
          exact hslice
        have hpre : front ++ [part] <+: slice := ⟨rest, hslice⟩
        -- The part resolves to some child it accepts, and there is but one.
        have hplaces := h _ hpre _ _ _ _ (hfront.snoc hslot haccepts) (hfront.snoc hother hsame)
        obtain ⟨-, heq⟩ := List.append_inj' hplaces rfl
        cases heq
        have hchild : child = other := by
          have hleft := Node.child?_of_mem_slots hnode hslot
          rw [Node.child?_of_mem_slots hnode hother] at hleft
          exact (Option.some.inj hleft).symm
        rw [resolveFrom, hresolve, Option.bind_some, ← hchild]
        exact ih hslice (hfront.snoc hslot haccepts)
  exact hrest htrail (List.nil_append slice) .nil

namespace Registry

variable {commands : List Command} {label : Label} {turn : Turn} {type : String}

/-- A part that came from redirects leads where it accepts, the state being what it sees. -/
theorem leads_ofPart (pass : Pass) (part : Part) (value : Node) (seg : Seg) :
    pass.turns.leads (Step.ofPart true part) value seg =
      part.accepts pass.action pass.root value seg := by
  cases part <;> rfl

theorem everyBranch_docket (hminted : ∀ command ∈ commands, command.Minted mint) (type : String) :
    Trie.EveryBranch (Step.Minted mint) (fun _ => True) (docket commands type).branches := by
  refine (Trie.every_iff.mp (Trie.every_insertAll (fun entry hentry => ?_) Trie.every_empty)).2
  obtain ⟨turn, hturn, rfl⟩ := List.mem_map.mp hentry
  exact ⟨minted_of_mem_turns hminted hturn, trivial⟩

/-- Where predicates are minted, a turn is run at a place to which its own steps led. -/
theorem led_steps_of_runs (hminted : ∀ command ∈ commands, command.Minted mint) {pass : Pass}
    {start : Frame Turn} (hstart : start.branches = (docket commands type).branches) {place : Path}
    {now : Option Node} (h : pass.turns.Runs start place turn now) :
    turn ∈ turns commands type ∧
      pass.turns.Led start (docket commands type) turn.1.steps place := by
  obtain ⟨hturn, steps, -, hkeys, hled⟩ := led_of_runs hstart h
  have hsteps := hled.forall_steps (hstart ▸ everyBranch_docket hminted type)
  rw [eq_of_map_eq Step.Minted.eq_of_key (minted_of_mem_turns hminted hturn) hsteps hkeys]
  exact ⟨hturn, hled⟩

/--
Let all that is run on the way to a place have come along the steps that lead there.  Then
what is run on the way is run at the place itself, by a branch of the last step.
-/
theorem eq_of_own (hminted : ∀ command ∈ commands, command.Minted mint) {pass : Pass}
    {start : Frame Turn} (hstart : start.branches = (docket commands type).branches)
    (hroot : start.path = []) {own : List Step} {path acted : Path}
    (hfront : pass.turns.Led start (docket commands type) own path)
    (hown : ∀ other acted held, pass.turns.Runs start acted other held → acted <+: path →
      own <+: other.1.steps)
    (hacted : acted <+: path) {branch : Step × Trie Turn}
    (hleads : pass.turns.LeadsIn start acted branch) (hvalues : branch.2.values ≠ []) :
    acted = path ∧ own.getLast? = some branch.1 := by
  obtain ⟨other, hmem, held, hruns⟩ := hleads.runs hvalues
  have hpre := hown other acted held hruns hacted
  obtain ⟨hother, hled⟩ := led_steps_of_runs hminted hstart hruns
  have hlength : other.1.steps.length = acted.length := (hled.forall₂ hroot).length_eq
  have hhere : own.length = path.length := (hfront.forall₂ hroot).length_eq
  have hle := hpre.length_le
  obtain ⟨steps, hbranch, hat⟩ := hleads.led (deterministic_docket commands type) hstart
  rw [values_docket hat] at hmem
  have hkeys := of_decide_eq_true (List.mem_filter.mp hmem).2
  have hsame : other.1.steps = steps ++ [branch.1] :=
    eq_of_map_eq Step.Minted.eq_of_key (minted_of_mem_turns hminted hother)
      (hbranch.forall_steps (hstart ▸ everyBranch_docket hminted type)) hkeys
  -- As many steps as segments on either side, so neither is shorter than the other.
  have hshort := hacted.length_le
  refine ⟨hacted.eq_of_length (by omega), ?_⟩
  rw [hpre.eq_of_length (by omega), hsame, List.getLast?_concat]

/--
**An effect on a redirected property runs only at or below places that its target accepts.**
Part by part the target accepts a value that the slot held; and if the target leads to no two
places of the state, and no effect that is not declared on the property runs there or on
the way, the place is the one that the target leads to, and the view has at the property
what is there.
-/
theorem runs_within_instance (hcommands : ∀ command ∈ commands, command.Distinct)
    (hminted : ∀ command ∈ commands, command.Minted mint) {root : Label}
    {fields : List (String × Node)} (hdistinct : (Node.obj root fields).Distinct)
    {held : Redirects} (hheld : (after commands).redirects? action.type = some held)
    {name : String} {target rest : Slice} (htarget : Table.get? held name = some target)
    (hfield : (Table.get? fields name).isSome = true) (hslice : turn.1.slice = .key name :: rest)
    {place : Path} {now : Option Node}
    (hruns : Runs commands (.obj root fields) action label turn place now) :
    ∃ path, path <+: place ∧
      List.Forall₂ (fun part seg => ∃ value,
        Part.accepts part action (.obj root fields) value seg = true) target path ∧
      (target.Single action (.obj root fields) →
        (∀ other acted held, Runs commands (.obj root fields) action label other acted held →
          acted <+: path → ∃ others, other.1.slice = .key name :: others) →
        ∃ found view after, target.Trail action (.obj root fields) (.obj root fields) path found ∧
          target.resolve action (.obj root fields) = some found ∧
          (Redirects.view (some held) action (.obj root fields)).run label = .ok (view, after) ∧
          view.child? (.key name) = some found) := by
  obtain ⟨view, begin, hview, hwalk⟩ := hruns
  obtain ⟨hturn, hled⟩ := led_steps_of_runs hminted rfl hwalk
  rw [steps_of_redirected hcommands hminted hturn hheld htarget hslice] at hled
  obtain ⟨path, hpath, hfront⟩ := hled.upTo (List.prefix_append _ _)
  have haccepts := List.forall₂_map_left_iff.mp (hfront.forall₂ rfl)
  simp only [leads_ofPart] at haccepts
  refine ⟨path, hpath, haccepts, fun hsingle hown => ?_⟩
  -- What is run on the way was declared on the property, so its steps begin with the target's.
  have hothers : ∀ other acted held, (Pass.turns ⟨action, .obj root fields, view⟩).Runs
      ⟨[], (docket commands action.type).branches, .obj root fields, begin⟩ acted other held →
      acted <+: path → target.map (Step.ofPart true) <+: other.1.steps := by
    intro other acted now hother hacted
    obtain ⟨others, hsame⟩ := hown other acted now ⟨view, begin, hview, hother⟩ hacted
    obtain ⟨hmem, -⟩ := led_steps_of_runs hminted rfl hother
    rw [steps_of_redirected hcommands hminted hmem hheld htarget hsame]
    exact List.prefix_append _ _
  obtain ⟨found, htrail⟩ := hfront.trail rfl hdistinct
    (fun acted hacted hne ⟨branch, hleads, hvalues⟩ =>
      hne (eq_of_own hminted rfl rfl hfront hothers hacted hleads hvalues).1)
    (fun step hstep branch hleads hvalues child seg hchild => by
      obtain ⟨-, hlast⟩ :=
        eq_of_own hminted rfl rfl hfront hothers (List.prefix_refl _) hleads hvalues
      rw [hlast] at hstep
      rwa [← Option.some.inj hstep])
  have hparts : target.Trail action (.obj root fields) (.obj root fields) path found := by
    have hmapped := htrail.of_map
    simp only [leads_ofPart] at hmapped
    exact hmapped
  have hfound := hsingle.resolve_eq hdistinct hparts
  rw [hheld] at hview
  refine ⟨found, view, begin, hparts, hfound, hview, ?_⟩
  rw [Redirects.child?_view htarget hfield hview, hfound, Option.getD_some]

/-! ### Two lists and a box -/

/-- The list is that one of the lists of which the predicate holds. -/
def listOf (test : Predicate) : Redirects :=
  [("list", [.key "lists", .predicate test])]

/-- One reaction, which drops the list. -/
def dropList (test : Predicate) : List Command :=
  [.register [[("drop", .reaction ⟨some fun _ => .null, [⟨[.key "list"], some .delete⟩]⟩)]]
    (some (listOf test)) none]

/-- A state with two lists. -/
def listPair : Node :=
  .obj 0 [("list", .null), ("lists", .obj 1 [("a", .obj 2 []), ("b", .obj 3 [])])]

/-- The effect of the reaction, as it was declared. -/
def listTurn (test : Predicate) : Turn :=
  (⟨some (listOf test), [.key "list"], .delete⟩, 0)

/-- One reaction, which makes an object with a list in the box, and then drops the list. -/
def fillBox : List Command :=
  [.register [[("fill", .reaction ⟨some fun _ => .null,
      [⟨[.key "box"], some (.set fun _ _ _ => .obj [("list", .keep .null)])⟩,
        ⟨[.key "list"], some .delete⟩]⟩)]]
    (some [("list", [.key "box", .key "list"])]) none]

/-- The second effect of the reaction, as it was declared. -/
def boxTurn : Turn :=
  (⟨some [("list", [.key "box", .key "list"])], [.key "list"], .delete⟩, 1)

/-- The list of this name. -/
def called (name : String) : Predicate :=
  ⟨0, fun _ _ _ seg => seg == .key name, none⟩

/-- Any list. -/
def anyList : Predicate :=
  ⟨0, fun _ _ _ _ => true, none⟩

/-- Of two lists one is called `b`, and dropping it is run there, where the view has it. -/
theorem runs_within_instance_called :
    ∃ path, path <+: [.key "lists", .key "b"] ∧ ∃ found view after,
      Slice.Trail ⟨"drop", .null⟩ listPair listPair [.key "lists", .predicate (called "b")] path
        found ∧
      Slice.resolve [.key "lists", .predicate (called "b")] ⟨"drop", .null⟩ listPair = some found ∧
      (Redirects.view (some (listOf (called "b"))) ⟨"drop", .null⟩ listPair).run 4 =
        .ok (view, after) ∧
      view.child? (.key "list") = some found := by
  have hcommands : ∀ command ∈ dropList (called "b"), command.Distinct := by
    simp [dropList, listOf, Command.Distinct, Table.Distinct, Table.keys]
  have hminted : ∀ command ∈ dropList (called "b"),
      command.Minted fun _ => (called "b").test := by
    simp [dropList, listOf, Command.Minted, Part.Minted, Predicate.Minted, called]
  have hdistinct : listPair.Distinct := by
    simp [listPair, Node.Distinct, Node.DistinctFields, Table.Distinct, Table.keys]
  have hheld : (after (dropList (called "b"))).redirects? "drop" = some (listOf (called "b")) :=
    rfl
  have htarget : Table.get? (listOf (called "b")) "list" =
      some [.key "lists", .predicate (called "b")] := rfl
  have hruns : Runs (dropList (called "b")) listPair ⟨"drop", .null⟩ 4 (listTurn (called "b"))
      [.key "lists", .key "b"] (some (.obj 3 [])) :=
    ⟨_, _, rfl, ⟨[.key "lists"], _, _, _⟩, .key "b", .obj 3 [], _,
      .single (.mk ⟨[(.key "list", .null)], [], [some .null], rfl, rfl⟩ rfl (List.cons_ne_nil _ _)),
      ⟨[(.key "a", .obj 2 [])], [], [some (.obj 2 [])], rfl, rfl⟩, rfl, .here rfl .here⟩
  obtain ⟨path, hpath, -, hwithin⟩ :=
    runs_within_instance hcommands hminted hdistinct hheld htarget rfl rfl hruns
  refine ⟨path, hpath, hwithin (Slice.single_of_names ?_) ?_⟩
  · simp only [List.forall_mem_cons, Part.accepts, Predicate.holds, called, beq_iff_eq]
    refine ⟨?_, ?_, List.forall_mem_nil _⟩
    · rintro - - _ _ rfl rfl
      rfl
    · rintro - - _ _ rfl rfl
      rfl
  · rintro other acted held ⟨view, begin, hview, hwalk⟩ -
    have hother : other ∈ turns (dropList (called "b")) "drop" := (led_of_runs rfl hwalk).1
    rw [show turns (dropList (called "b")) "drop" = [listTurn (called "b")] from rfl] at hother
    rw [List.mem_singleton.mp hother]
    exact ⟨[], rfl⟩

/--
Neither condition can be left out.  Where a predicate accepts two lists the target resolves to
the first, and the effect is run on the second as well; and where another effect makes what
the target leads to, the effect is run on it, although the target resolved to nothing.
-/
theorem runs_beyond_instance :
    (Runs (dropList anyList) listPair ⟨"drop", .null⟩ 4 (listTurn anyList)
        [.key "lists", .key "b"] (some (.obj 3 [])) ∧
      Slice.resolve [.key "lists", .predicate anyList] ⟨"drop", .null⟩ listPair =
        listPair.at? [.key "lists", .key "a"] ∧
      ¬[Seg.key "lists", .key "a"] <+: [.key "lists", .key "b"]) ∧
    (Runs fillBox (.obj 0 [("list", .null), ("box", .obj 1 [])]) ⟨"fill", .null⟩ 2 boxTurn
        [.key "box", .key "list"] (some .null) ∧
      Slice.resolve [.key "box", .key "list"] ⟨"fill", .null⟩
        (.obj 0 [("list", .null), ("box", .obj 1 [])]) = none) := by
  refine ⟨⟨?_, rfl, by decide⟩, ?_, rfl⟩
  · exact ⟨_, _, rfl, ⟨[.key "lists"], _, _, _⟩, .key "b", .obj 3 [], _,
      .single (.mk ⟨[(.key "list", .null)], [], [some .null], rfl, rfl⟩ rfl (List.cons_ne_nil _ _)),
      ⟨[(.key "a", .obj 2 [])], [], [none], rfl, rfl⟩, rfl, .here rfl .here⟩
  · exact ⟨_, _, rfl, ⟨[.key "box"], _, .obj 3 [("list", .null)], _⟩, .key "list", .null, _,
      .single (.mk ⟨[(.key "list", .null)], [], [some .null], rfl, rfl⟩ rfl (List.cons_ne_nil _ _)),
      ⟨[], [], [], rfl, rfl⟩, rfl, .here rfl .here⟩

end Registry

end Reducer
