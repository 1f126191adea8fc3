/-
Redirects that stay what they are.

The redirects of a group are kept twice: with its scope, for selectors and for the view that
is shown on demand, and once more for each action type, for reductions.  Neither is written
without a check, but the checks are two, they are made for a whole batch at a time, and types
of different groups may meet.  That the two never come apart is what is shown here.

`Coherent` is what holds of every registry that calls lead to: nothing is kept for a type
without a creator, a creator builds actions of the type it is filed under, and the members of
a group have the redirects of the group.  `Keeps` is what one call does to what is there, and
a run of calls that do not clear is one such step after another.  Redirects are compared the
way registration compares them, so what is said here is what the next check will find.

A view only depends on where redirects lead and on what their predicates decide.  So if these
do not look at the action, a group is shown the view that its callbacks see.
-/
import Reducer.Proofs.Instances
import Reducer.Proofs.Qualified
import Reducer.Proofs.Reduction

namespace Reducer

namespace Redirects

/-! ### Redirects that lead alike are found equal -/

theorem isSome_target? {redirects : Redirects} {name : String} :
    (redirects.target? name).isSome = true ↔ name ∈ Table.keys redirects := by
  unfold target?
  rw [Option.isSome_map]
  constructor
  · intro h
    by_contra hmissing
    rw [(Table.get?_eq_none_iff redirects name).mpr hmissing] at h
    cases h
  · intro h
    obtain ⟨slice, hslice⟩ := Table.exists_of_mem_keys h
    rw [hslice]
    rfl

theorem eqv_of_target? {a b : Redirects} (ha : Table.Distinct a) (hb : Table.Distinct b)
    (h : target? a = target? b) : eqv a b = true := by
  have hkeys : ∀ name, name ∈ Table.keys a ↔ name ∈ Table.keys b := by
    intro name
    rw [← isSome_target?, ← isSome_target?, h]
  have hperm : (Table.keys a).Perm (Table.keys b) := (List.perm_ext_iff_of_nodup ha hb).mpr hkeys
  have hlength : a.length = b.length := by
    simpa [Table.keys] using hperm.length_eq
  unfold eqv Table.eqvBy
  rw [hlength, beq_self_eq_true, Bool.true_and, List.all_eq_true]
  intro entry hentry
  have htarget := congrFun h entry.1
  unfold target? at htarget
  rw [Table.get?_of_mem ha hentry, Option.map_some] at htarget
  cases hother : Table.get? b entry.1 with
  | none =>
      rw [hother] at htarget
      cases htarget
  | some other =>
      rw [hother] at htarget
      exact Slice.beq_iff_ident.mpr (Option.some.inj htarget)

theorem eqvOption_of_agree {a b : Option Redirects} (ha : ∀ held, a = some held → held.Distinct)
    (hb : ∀ held, b = some held → held.Distinct) (h : Agree a b) : eqvOption a b = true := by
  cases a with
  | none =>
      cases b with
      | none => rfl
      | some other => cases h
  | some held =>
      cases b with
      | none => cases h
      | some other => exact eqv_of_target? (ha held rfl) (hb other rfl) (Option.some.inj h)

/-- Where no property is named twice, the comparison tells whether redirects agree. -/
theorem eqvOption_iff_agree {a b : Option Redirects} (ha : ∀ held, a = some held → held.Distinct)
    (hb : ∀ held, b = some held → held.Distinct) : eqvOption a b = true ↔ Agree a b :=
  ⟨agree_of_eqvOption ha, eqvOption_of_agree ha hb⟩

theorem eqvOption_refl {redirects : Option Redirects}
    (h : ∀ held, redirects = some held → held.Distinct) : eqvOption redirects redirects = true :=
  eqvOption_of_agree h h (agree_refl redirects)

/-! ### Views -/

/-- No predicate of the redirects minds which action it is asked for. -/
def IgnoreAction (redirects : Redirects) : Prop :=
  ∀ entry ∈ redirects, ∀ test, Part.predicate test ∈ entry.2 →
    ∀ action, test.holds action = test.holds Action.empty

end Redirects

/-- One and the same node, or two objects that have the same nodes at the same properties. -/
def Node.ShowsAlike (node other : Node) : Prop :=
  node = other ∨ ∃ label copy fields, node = .obj label fields ∧ other = .obj copy fields

theorem Slice.resolveFrom_of_ignores {slice : Slice} (root : Node) (action : Action)
    (h : ∀ test, Part.predicate test ∈ slice →
      ∀ action, test.holds action = test.holds Action.empty) :
    ∀ node, resolveFrom action root node slice = resolveFrom Action.empty root node slice := by
  induction slice with
  | nil =>
      intro node
      rfl
  | cons part rest ih =>
      intro node
      have hpart : part.resolve action root node = part.resolve Action.empty root node := by
        cases part with
        | predicate test =>
            have htest := h test List.mem_cons_self action
            simp only [Part.resolve, htest]
        | _ => rfl
      have hrest := ih fun test htest => h test (List.mem_cons_of_mem _ htest)
      unfold resolveFrom
      rw [hpart, funext hrest]

namespace Redirects

theorem shown_of_ignores {kept held : Redirects}
    (hsame : ∀ name, Table.get? kept name = Table.get? held name) (hignore : held.IgnoreAction)
    (action : Action) (root : Node) (name : String) (value : Node) :
    kept.shown action root name value = held.shown Action.empty root name value := by
  unfold shown
  rw [hsame]
  cases hslice : Table.get? held name with
  | none => rfl
  | some slice =>
      have htests := hignore _ (Table.mem_of_get? hslice)
      exact congrArg (Option.getD · _) (Slice.resolveFrom_of_ignores root action htests root)

/-- Redirects with one look-up build one view, for any action their predicates ignore. -/
theorem view_of_ignores {kept held : Option Redirects}
    (hsame : kept.map Table.get? = held.map Table.get?)
    (hignore : ∀ redirects, held = some redirects → redirects.IgnoreAction) (action : Action)
    (root : Node) : view kept action root = view held Action.empty root := by
  cases kept with
  | none =>
      cases held with
      | none => rfl
      | some redirects => cases hsame
  | some redirects =>
      cases held with
      | none => cases hsame
      | some others =>
          cases root with
          | obj label fields =>
              have hlookup := congrFun (Option.some.inj hsame)
              have hshown := shown_of_ignores hlookup (hignore others rfl) action
                (.obj label fields)
              unfold view
              simp only [hshown]
          | _ => rfl

/-- What is built as a view twice shows the same. -/
theorem showsAlike_of_view {redirects : Option Redirects} {action : Action} {root : Node}
    {node other : Node} {label after start next : Label}
    (h : (view redirects action root).run label = .ok (node, after))
    (hother : (view redirects action root).run start = .ok (other, next)) :
    node.ShowsAlike other := by
  cases redirects with
  | none =>
      cases h
      cases hother
      exact Or.inl rfl
  | some redirects =>
      cases root with
      | obj label fields =>
          cases h
          cases hother
          exact Or.inr ⟨_, _, _, rfl, rfl⟩
      | _ =>
          cases h
          cases hother
          exact Or.inl rfl

/-- Minted redirects that lead alike have one look-up. -/
theorem Agree.get?_eq {mint : Mint} {a b : Option Redirects} (h : Agree a b)
    (ha : ∀ held, a = some held → ∀ entry ∈ held, ∀ part ∈ entry.2, part.Minted mint)
    (hb : ∀ held, b = some held → ∀ entry ∈ held, ∀ part ∈ entry.2, part.Minted mint) :
    a.map Table.get? = b.map Table.get? := by
  cases a with
  | none =>
      cases b with
      | none => rfl
      | some other => cases h
  | some held =>
      cases b with
      | none => cases h
      | some other =>
          refine congrArg some (funext fun name => ?_)
          have hname := congrFun (Option.some.inj h) name
          unfold target? at hname
          cases hslice : Table.get? held name with
          | none =>
              rw [hslice] at hname
              exact (Option.map_eq_none_iff.mp hname.symm).symm
          | some slice =>
              rw [hslice] at hname
              obtain ⟨found, hfound, hsame⟩ := Option.map_eq_some_iff.mp hname.symm
              have hminted := ha held rfl _ (Table.mem_of_get? hslice)
              have hothers := hb other rfl _ (Table.mem_of_get? hfound)
              have hslices : found = slice :=
                eq_of_map_eq Part.Minted.eq_of_ident hothers hminted hsame
              rw [hfound, hslices]

end Redirects

namespace Registry

variable {registry between next : Registry} {redirects : Option Redirects} {group : Option String}
  {commands : List Command} {type name : String}

/-! ### Where creators are filed -/

/-- A creator builds actions of the type it is filed under. -/
def Filed (registry : Registry) : Prop :=
  ∀ type creator, registry.creator? type = some creator → creator.type = type

theorem Filed.congr (h : registry.Filed)
    (hcreator : ∀ type, next.creator? type = registry.creator? type) : next.Filed := by
  intro type creator htype
  rw [hcreator] at htype
  exact h type creator htype

theorem Filed.recordEntry (h : registry.Filed) (redirects : Option Redirects)
    (group : Option String) (name : String) (entry : Entry) :
    (registry.recordEntry redirects group name entry).Filed := by
  unfold Registry.recordEntry
  split
  · rename_i payload effects
    intro type creator htype
    rw [(recordReaction_types registry redirects group name payload effects type).1] at htype
    by_cases hname : qualify group name = type
    · rw [if_pos hname] at htype
      cases htype
      exact hname
    · rw [if_neg hname] at htype
      exact h type creator htype
  · exact h
  · exact h.congr fun type => (updateScope_types registry group _ type).1
  · exact h.congr fun type => (updateScope_types registry group _ type).1

theorem filed_after (commands : List Command) : (after commands).Filed := by
  have hany : ∀ command ∈ commands, (fun _ => True) command := fun _ _ => trivial
  refine registered_induction (fun registry _ => registry.Filed) hany ?_ ?_
  · intro type creator htype
    cases htype
  · intro registry next _ _ redirects group _ h hregister
    refine register_keeps Filed hregister ?_ ?_
    · exact h.congr fun type => (openScope_types registry redirects group type).1
    · intro _ _ entry _ _ between hbetween
      exact hbetween.recordEntry redirects group entry.1 entry.2

/-! ### What a call keeps -/

/--
Whatever is registered stays so, a type with its creator and a group with its scope, and its
redirects lead where they led.
-/
structure Keeps (registry next : Registry) : Prop where
  types : ∀ type, (registry.creator? type).isSome = true →
    (next.creator? type).isSome = true ∧
      Redirects.Agree (next.redirects? type) (registry.redirects? type)
  groups : ∀ group scope, Table.get? registry.groups group = some scope →
    next.Opened group scope.redirects

theorem Keeps.refl (registry : Registry) : registry.Keeps registry :=
  ⟨fun _ h => ⟨h, Redirects.agree_refl _⟩, fun _ scope h => ⟨scope, h, Redirects.agree_refl _⟩⟩

theorem Keeps.trans (h : registry.Keeps between) (hnext : between.Keeps next) :
    registry.Keeps next := by
  constructor
  · intro type hknown
    obtain ⟨hstill, hsame⟩ := h.types type hknown
    obtain ⟨hlater, hlast⟩ := hnext.types type hstill
    exact ⟨hlater, hlast.trans hsame⟩
  · intro group scope hscope
    obtain ⟨middle, hmiddle, hsame⟩ := h.groups group scope hscope
    obtain ⟨last, hlater, hlast⟩ := hnext.groups group middle hmiddle
    exact ⟨last, hlater, hlast.trans hsame⟩

/-- Recording an entry leaves the groups alone, or changes one without touching its redirects. -/
theorem recordEntry_groups (registry : Registry) (redirects : Option Redirects)
    (group : Option String) (name : String) (entry : Entry) :
    (registry.recordEntry redirects group name entry).groups = registry.groups ∨
      ∃ change : Scope → Scope, (∀ scope, (change scope).redirects = scope.redirects) ∧
        registry.ChangesScope (registry.recordEntry redirects group name entry) group change := by
  unfold recordEntry
  split
  · rename_i payload effects
    refine Or.inr ⟨fun scope => { scope with
      creators := Table.set scope.creators name ⟨qualify group name, payload⟩ }, fun _ => rfl, ?_⟩
    cases group <;> rfl
  · exact Or.inl rfl
  · rename_i selector
    exact Or.inr ⟨fun scope => { scope with selectors := Table.set scope.selectors name selector },
      fun _ => rfl, rfl⟩
  · rename_i thunk
    exact Or.inr ⟨fun scope => { scope with thunks := Table.set scope.thunks name thunk },
      fun _ => rfl, rfl⟩

theorem Opened.recordEntry {held : Option Redirects} {group : String}
    (h : registry.Opened group held) (redirects : Option Redirects) (target : Option String)
    (name : String) (entry : Entry) :
    (registry.recordEntry redirects target name entry).Opened group held := by
  rcases recordEntry_groups registry redirects target name entry with hsame | ⟨_, hkept, hchange⟩
  · unfold Opened
    rw [hsame]
    exact h
  · exact hchange.opened hkept h

/-- Opening a scope leaves every group the redirects it has, up to what the check lets through. -/
theorem opened_openScope (hcheck : registry.checkGroup redirects group = .ok ())
    {other : String} {scope : Scope} (hscope : Table.get? registry.groups other = some scope)
    (hdistinct : ∀ held, scope.redirects = some held → held.Distinct) :
    (registry.openScope redirects group).Opened other scope.redirects := by
  have hopen : registry.ChangesScope (registry.openScope redirects group) group _ := rfl
  unfold Opened
  rw [hopen.get?, hscope]
  by_cases hname : group = some other
  · subst hname
    rw [if_pos rfl]
    refine ⟨_, rfl, ?_⟩
    have hsame := Redirects.agree_of_eqvOption hdistinct (eqvOption_of_checkGroup hcheck hscope)
    cases redirects with
    | none => exact Redirects.agree_refl _
    | some held => exact hsame.symm
  · rw [if_neg hname]
    exact ⟨scope, rfl, Redirects.agree_refl _⟩

/-- An entry that the check lets through keeps a known type with its redirects. -/
theorem keepsType_recordEntry {type name : String} {entry : Entry}
    (hcheck : registry.checkEntry redirects group name entry = .ok ())
    (hcomplete : ∀ reaction, entry = .reaction reaction → Complete reaction)
    (hdistinct : ∀ held, registry.redirects? type = some held → held.Distinct)
    (hknown : (registry.creator? type).isSome = true)
    (h : (between.creator? type).isSome = true ∧
      Redirects.Agree (between.redirects? type) (registry.redirects? type)) :
    ((between.recordEntry redirects group name entry).creator? type).isSome = true ∧
      Redirects.Agree ((between.recordEntry redirects group name entry).redirects? type)
        (registry.redirects? type) := by
  obtain ⟨hstill, hsame⟩ := h
  cases entry with
  | reaction reaction =>
      obtain ⟨payload, hrecord⟩ := (hcomplete _ rfl).recordEntry_eq between redirects group name
      obtain ⟨hmade, hgiven⟩ := recordReaction_types between redirects group name payload
        reaction.effects type
      rw [hrecord, hmade, hgiven]
      by_cases hname : qualify group name = type
      · rw [if_pos hname, if_pos hname]
        refine ⟨rfl, ?_⟩
        subst hname
        have hadmits := Redirects.agree_of_eqvOption hdistinct
          (eqvOption_of_checkEntry hcheck hknown)
        cases redirects with
        | none => exact hsame
        | some held => exact hadmits.symm
      · rw [if_neg hname, if_neg hname]
        exact ⟨hstill, hsame⟩
  | _ =>
      obtain ⟨hmade, hgiven⟩ := updateScope_types between group _ type
      exact ⟨hmade ▸ hstill, hgiven ▸ hsame⟩

/-- Nothing is registered anew under redirects that lead elsewhere. -/
theorem keeps_register {batch : List Declarations}
    (hregister : registry.register batch redirects group = .ok next)
    (htypes : ∀ type held, registry.redirects? type = some held → held.Distinct)
    (hgroups : ∀ name scope held, Table.get? registry.groups name = some scope →
      scope.redirects = some held → held.Distinct) : registry.Keeps next := by
  obtain ⟨_, hcheck, -⟩ := bind_ok hregister
  obtain ⟨hgroup, hentries⟩ := check_ok hcheck
  constructor
  · intro type hknown
    obtain ⟨hcreator, hredirects⟩ := openScope_types registry redirects group type
    refine register_keeps (fun next => (next.creator? type).isSome = true ∧
      Redirects.Agree (next.redirects? type) (registry.redirects? type)) hregister ?_ ?_
    · rw [hcreator, hredirects]
      exact ⟨hknown, Redirects.agree_refl _⟩
    · intro declarations hdeclarations entry hentry hcomplete between hbetween
      exact keepsType_recordEntry (hentries declarations hdeclarations entry hentry) hcomplete
        (htypes type) hknown hbetween
  · intro name scope hscope
    refine register_keeps (Opened · name scope.redirects) hregister ?_ ?_
    · exact opened_openScope hgroup hscope fun held => hgroups name scope held hscope
    · intro _ _ entry _ _ between hbetween
      exact hbetween.recordEntry redirects group entry.1 entry.2

/-- A call that does not clear keeps what other calls have registered. -/
theorem keeps_step (h : ∀ command ∈ commands, command.Distinct) {command : Command}
    (hcommand : command ≠ .clear) : (after commands).Keeps ((after commands).step command) := by
  cases command with
  | clear => exact absurd rfl hcommand
  | register batch redirects group =>
      rw [step]
      cases hregister : (after commands).register batch redirects group with
      | error fault => exact Keeps.refl _
      | ok next =>
          exact keeps_register hregister (fun type => (typeKept_after h type).distinct)
            fun name => (groupKept_after h name).distinct

/-- Between two clears nothing that is registered gets other redirects. -/
theorem keeps_after {rest : List Command} (h : ∀ command ∈ commands ++ rest, command.Distinct)
    (hrest : Command.clear ∉ rest) : (after commands).Keeps (after (commands ++ rest)) := by
  induction rest using List.reverseRecOn with
  | nil =>
      rw [List.append_nil]
      exact Keeps.refl _
  | append_singleton front command ih =>
      rw [← List.append_assoc] at h ⊢
      have hfront : ∀ command ∈ commands ++ front, command.Distinct := fun other hother =>
        h other (List.mem_append_left _ hother)
      have hstep : after (commands ++ front ++ [command]) =
          (after (commands ++ front)).step command := List.foldl_append
      have hcommand : command ≠ .clear := by
        intro hclear
        exact hrest (List.mem_append_right _ (List.mem_singleton.mpr hclear.symm))
      rw [hstep]
      exact (ih hfront fun hclear => hrest (List.mem_append_left _ hclear)).trans
        (keeps_step hfront hcommand)

/-! ### Where redirects come from -/

/-- A scope that keeps its redirects when it is changed had them before. -/
theorem ChangesScope.redirects_of_get? {change : Scope → Scope}
    (h : registry.ChangesScope next group change)
    (hchange : ∀ scope, (change scope).redirects = scope.redirects) {other : String}
    {scope : Scope} {held : Redirects} (hscope : Table.get? next.groups other = some scope)
    (hheld : scope.redirects = some held) :
    ∃ old, Table.get? registry.groups other = some old ∧ old.redirects = some held := by
  rw [h.get?] at hscope
  by_cases hname : group = some other
  · rw [if_pos hname] at hscope
    cases hscope
    rw [hchange] at hheld
    cases hold : Table.get? registry.groups other with
    | none =>
        rw [hold] at hheld
        cases hheld
    | some old =>
        rw [hold] at hheld
        exact ⟨old, rfl, hheld⟩
  · rw [if_neg hname] at hscope
    exact ⟨scope, hscope, hheld⟩

/-- The redirects of a group after a call were there before or came with the call. -/
theorem scope_redirects_of_register {batch : List Declarations}
    (hregister : registry.register batch redirects group = .ok next) {other : String}
    {scope : Scope} {held : Redirects} (hscope : Table.get? next.groups other = some scope)
    (hheld : scope.redirects = some held) :
    (∃ old, Table.get? registry.groups other = some old ∧ old.redirects = some held) ∨
      redirects = some held := by
  refine register_keeps (fun next => ∀ scope held, Table.get? next.groups other = some scope →
    scope.redirects = some held →
      (∃ old, Table.get? registry.groups other = some old ∧ old.redirects = some held) ∨
        redirects = some held) hregister ?_ ?_ scope held hscope hheld
  · intro scope held hscope hheld
    have hopen : registry.ChangesScope (registry.openScope redirects group) group _ := rfl
    cases redirects with
    | none => exact Or.inl (hopen.redirects_of_get? (fun _ => rfl) hscope hheld)
    | some given =>
        rw [hopen.get?] at hscope
        by_cases hname : group = some other
        · rw [if_pos hname] at hscope
          cases hscope
          exact Or.inr hheld
        · rw [if_neg hname] at hscope
          exact Or.inl ⟨scope, hscope, hheld⟩
  · intro _ _ entry _ _ between hbetween scope held hscope hheld
    rcases recordEntry_groups between redirects group entry.1 entry.2 with
      hsame | ⟨change, hkept, hchange⟩
    · rw [hsame] at hscope
      exact hbetween scope held hscope hheld
    · obtain ⟨old, hold, hredirects⟩ := hchange.redirects_of_get? hkept hscope hheld
      exact hbetween old held hold hredirects

theorem minted_of_scope {mint : Mint} (h : ∀ command ∈ commands, command.Minted mint)
    {group : String} {scope : Scope}
    (hscope : Table.get? (after commands).groups group = some scope) :
    ∀ held, scope.redirects = some held → ∀ entry ∈ held, ∀ part ∈ entry.2, part.Minted mint := by
  refine registered_induction (fun registry _ => ∀ scope,
    Table.get? registry.groups group = some scope → ∀ held, scope.redirects = some held →
      ∀ entry ∈ held, ∀ part ∈ entry.2, part.Minted mint) h ?_ ?_ scope hscope
  · intro scope hscope
    cases hscope
  · intro registry next _ _ redirects _ hfine hregistry hregister scope hscope held hheld
    rcases scope_redirects_of_register hregister hscope hheld with ⟨old, hold, hkept⟩ | hgiven
    · exact hregistry old hold held hkept
    · exact hfine.1 held hgiven

/-! ### Every registry that calls lead to -/

/-- Nothing is kept without a creator, and what is kept twice is kept alike. -/
structure Coherent (registry : Registry) : Prop where
  created : ∀ type, (registry.trie? type).isSome = true ∨ (registry.redirects? type).isSome = true →
    (registry.creator? type).isSome = true
  filed : registry.Filed
  owned : ∀ group name creator, registry.own? group name = some creator →
    creator.type = qualify group name ∧ (registry.creator? (qualify group name)).isSome = true
  members : ∀ group scope name, registry.scope (some group) = .ok scope →
    (registry.groupCreator? group name).isSome = true →
      Redirects.eqvOption (registry.redirects? (qualify (some group) name)) scope.redirects = true

theorem scope_eq_ok {group : String} {scope : Scope} :
    registry.scope (some group) = .ok scope ↔ Table.get? registry.groups group = some scope := by
  rw [Registry.scope]
  cases Table.get? registry.groups group with
  | none => simp
  | some held => simp

/-- What was merged into the trie of a type came with a reaction, and that has a creator. -/
theorem isSome_creator?_of_trie? (h : ∀ command ∈ commands, command.Distinct)
    (htrie : ((after commands).trie? type).isSome = true) :
    ((after commands).creator? type).isSome = true := by
  obtain ⟨trie, hmerged⟩ := Option.isSome_iff_exists.mp htrie
  rw [trie?_after] at hmerged
  obtain ⟨hsome, -⟩ := holds_of_merged hmerged
  obtain ⟨placed, hplaced⟩ := List.exists_mem_of_ne_nil _ hsome
  rw [accepted_eq] at hplaced
  obtain ⟨reaction, hreaction, hdeclares⟩ := List.mem_flatMap.mp hplaced
  have htype : reaction.type = type := by
    by_contra hne
    rw [Registered.placed, if_neg hne] at hdeclares
    cases hdeclares
  exact ((typeKept_after h type).agree reaction hreaction htype).1

theorem members_after (h : ∀ command ∈ commands, command.Distinct) {group name : String}
    {scope : Scope} (hscope : (after commands).scope (some group) = .ok scope)
    (hmember : ((after commands).groupCreator? group name).isSome = true) :
    Redirects.eqvOption ((after commands).redirects? (qualify (some group) name))
      scope.redirects = true := by
  have htype := (typeKept_after h (qualify (some group) name)).distinct
  have hgroup := fun held => (groupKept_after h group).distinct scope held (scope_eq_ok.mp hscope)
  exact Redirects.eqvOption_of_agree htype hgroup (agree_of_member h hscope hmember).1

theorem coherent_of_distinct (h : ∀ command ∈ commands, command.Distinct) :
    (after commands).Coherent := by
  refine ⟨?_, filed_after commands, (owned_after commands).known, ?_⟩
  · intro type hkept
    rcases hkept with htrie | hredirects
    · exact isSome_creator?_of_trie? h htrie
    · by_contra hmissing
      have hnone := Option.not_isSome_iff_eq_none.mp hmissing
      rw [(typeKept_after h type).fresh hnone] at hredirects
      cases hredirects
  · intro group scope name hscope hmember
    exact members_after h hscope hmember

/-- A group is shown what its callbacks see, if what they see does not depend on the action. -/
theorem showsAlike_of_starts (h : ∀ command ∈ commands, command.Distinct) {mint : Mint}
    (hminted : ∀ command ∈ commands, command.Minted mint) {group : String} {scope : Scope}
    (hscope : (after commands).scope (some group) = .ok scope)
    (hmember : ((after commands).groupCreator? group name).isSome = true)
    (hignore : ∀ held, scope.redirects = some held → held.IgnoreAction) {state : Node}
    {action : Action} (htype : action.type = qualify (some group) name) {label other : Label}
    {pass : Pass} {start : Frame Effect}
    (hstart : (after commands).Starts state action label pass start) :
    ∃ seen next, ((after commands).groupView state (some group)).run other = .ok (seen, next) ∧
      seen.ShowsAlike pass.view := by
  obtain ⟨-, hview⟩ := hstart
  rw [htype] at hview
  have hlookup := (agree_of_member h hscope hmember).1.get?_eq (minted_of_redirects? hminted)
    (minted_of_scope hminted (scope_eq_ok.mp hscope))
  rw [Redirects.view_of_ignores hlookup hignore] at hview
  obtain ⟨seen, next, hseen, -⟩ := Redirects.view_run scope.redirects Action.empty state other
  refine ⟨seen, next, ?_, Redirects.showsAlike_of_view hseen hview⟩
  rw [groupView, hscope]
  exact hseen

/--
**Redirects are fixed and coherent.**  After any calls, refused ones included, nothing is kept
for a type without a creator, every creator builds actions of the type it is filed under, and
the members of a group have the redirects of the group.  From one call to a later one, with no
clear in between, a type or a group that is registered stays so with equal redirects.  And
where predicates of a group's redirects do not mind the action, the view of the group shows
the nodes that callbacks of its actions see, property by property.
-/
theorem coherent_after (h : ∀ command ∈ commands, command.Distinct) :
    (after commands).Coherent ∧
    (∀ front rest, commands = front ++ rest → Command.clear ∉ rest →
      (∀ type, ((after front).creator? type).isSome = true →
        ((after commands).creator? type).isSome = true ∧
          Redirects.eqvOption ((after front).redirects? type)
            ((after commands).redirects? type) = true) ∧
      ∀ group scope, (after front).scope (some group) = .ok scope →
        ∃ later, (after commands).scope (some group) = .ok later ∧
          Redirects.eqvOption scope.redirects later.redirects = true) ∧
    ∀ mint, (∀ command ∈ commands, command.Minted mint) → ∀ group scope name,
      (after commands).scope (some group) = .ok scope →
      ((after commands).groupCreator? group name).isSome = true →
      (∀ held, scope.redirects = some held → held.IgnoreAction) →
      ∀ state action label other pass start, action.type = qualify (some group) name →
        (after commands).Starts state action label pass start →
        ∃ seen next, ((after commands).groupView state (some group)).run other = .ok (seen, next) ∧
          seen.ShowsAlike pass.view := by
  refine ⟨coherent_of_distinct h, ?_, ?_⟩
  · intro front rest hcommands hrest
    subst hcommands
    have hfront : ∀ command ∈ front, command.Distinct := fun command hcommand =>
      h command (List.mem_append_left _ hcommand)
    obtain ⟨htypes, hgroups⟩ := keeps_after h hrest
    constructor
    · intro type hknown
      obtain ⟨hstill, hsame⟩ := htypes type hknown
      exact ⟨hstill, Redirects.eqvOption_of_agree (typeKept_after hfront type).distinct
        (typeKept_after h type).distinct hsame.symm⟩
    · intro group scope hscope
      rw [scope_eq_ok] at hscope
      obtain ⟨later, hlater, hsame⟩ := hgroups group scope hscope
      have hbefore := fun held => (groupKept_after hfront group).distinct scope held hscope
      have hafter := fun held => (groupKept_after h group).distinct later held hlater
      exact ⟨later, scope_eq_ok.mpr hlater,
        Redirects.eqvOption_of_agree hbefore hafter hsame.symm⟩
  · intro mint hminted group scope name hscope hmember hignore state action label other pass start
      htype hstart
    exact showsAlike_of_starts h hminted hscope hmember hignore htype hstart

/-! ### A group that is registered twice -/

/-- The redirects of two properties, one of them by a predicate. -/
def twoSent : Redirects :=
  [("list", [.key "lists", .predicate (called "b")]), ("box", [.key "lists"])]

theorem eq_called_of_mem_twoSent {entry : String × Slice} (hentry : entry ∈ twoSent)
    {test : Predicate} (htest : Part.predicate test ∈ entry.2) : test = called "b" := by
  simp only [twoSent, List.mem_cons, List.not_mem_nil, or_false] at hentry
  rcases hentry with rfl | rfl
  · simpa using htest
  · simp at htest

/--
A group is registered, then refused with redirects that send one property less, then
registered again with the properties in another order.
-/
def twiceRegistered : List Command :=
  [.register (drops "drop" "list" .null) (some twoSent) (some "left"),
    .register (drops "lose" "list" .null) (some (listOf (called "b"))) (some "left"),
    .register (drops "take" "box" .null) (some twoSent.reverse) (some "left")]

/-- A state with a list and a box, and two lists to send them to. -/
def boxAndLists : Node :=
  .obj 0 [("list", .null), ("box", .null),
    ("lists", .obj 1 [("a", .obj 2 []), ("b", .obj 3 [])])]

/-- The first reaction keeps its redirects, and callbacks see what the group is shown. -/
theorem coherent_after_twiceRegistered :
    ((after twiceRegistered).creator? "left.lose").isSome = false ∧
    Redirects.eqvOption ((after twiceRegistered).redirects? "left.drop")
      (some twoSent.reverse) = true ∧
    Redirects.eqvOption (some twoSent)
      ((after twiceRegistered).redirects? "left.drop") = true ∧
    ∃ pass start seen next,
      (after twiceRegistered).Starts boxAndLists ⟨"left.drop", .null⟩ 4 pass start ∧
      ((after twiceRegistered).groupView boxAndLists (some "left")).run 9 = .ok (seen, next) ∧
      seen.ShowsAlike pass.view := by
  have hdistinct : ∀ command ∈ twiceRegistered, command.Distinct := by
    simp [twiceRegistered, twoSent, listOf, Command.Distinct, Table.Distinct, Table.keys]
  have hparts : ∀ entry ∈ twoSent, ∀ part ∈ entry.2,
      part.Minted fun _ => (called "b").test := by
    intro entry hentry part hpart
    cases part with
    | predicate test =>
        rw [eq_called_of_mem_twoSent hentry hpart]
        rfl
    | _ => trivial
  have hlist : ∀ entry ∈ listOf (called "b"), entry ∈ twoSent := by
    simp [listOf, twoSent]
  have hminted : ∀ command ∈ twiceRegistered,
      command.Minted fun _ => (called "b").test := by
    simp only [twiceRegistered, List.forall_mem_cons, Command.Minted, Option.some.injEq,
      forall_eq', List.mem_reverse]
    refine ⟨⟨hparts, ?_⟩, ⟨fun entry hentry => hparts entry (hlist entry hentry), ?_⟩,
      ⟨hparts, ?_⟩, List.forall_mem_nil _⟩
    all_goals simp [drops, Part.Minted]
  obtain ⟨hcoherent, hfixed, hviews⟩ := coherent_after hdistinct
  have hscope : (after twiceRegistered).scope (some "left") =
      .ok ⟨[("drop", ⟨"left.drop", fun _ => .null⟩), ("take", ⟨"left.take", fun _ => .null⟩)],
        [], [], some twoSent.reverse⟩ := rfl
  have hignore : ∀ held, some twoSent.reverse = some held → Redirects.IgnoreAction held := by
    intro held hheld
    cases hheld
    intro entry hentry test htest action
    rw [eq_called_of_mem_twoSent (List.mem_reverse.mp hentry) htest]
    rfl
  obtain ⟨htypes, -⟩ := hfixed (twiceRegistered.take 1) (twiceRegistered.drop 1) rfl (by
    simp [twiceRegistered])
  have hstart : (after twiceRegistered).Starts boxAndLists ⟨"left.drop", .null⟩ 4 _ _ :=
    .mk rfl rfl
  obtain ⟨seen, next, hseen, halike⟩ :=
    hviews _ hminted "left" _ "drop" hscope rfl hignore boxAndLists ⟨"left.drop", .null⟩ 4 9 _ _
      rfl hstart
  exact ⟨rfl, hcoherent.members "left" _ "drop" hscope rfl, (htypes "left.drop" rfl).2,
    _, _, seen, next, hstart, hseen, halike⟩

end Registry

end Reducer
