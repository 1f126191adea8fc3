/-
Walks along names.

A literal step leads to the child of its name, whatever that child is.  So where a trie has
no other steps, it branches as the tree does: one branch at most leads to a slot, the slot is
settled by what lies on that branch, and a frame has left what the trie has at its path.

A walk that succeeds goes everywhere it is led.  Down to a place where it runs something for
the first time it finds the tree as it was, and so the values of the trie at the place are
run there just when the tree has a node there, and the first of them is run on that node:
`runs_of_at?` and `at?_of_runs`.
-/
import Reducer.Proofs.Trie
import Reducer.Proofs.Walk.Runs

namespace Reducer

open Build

namespace Trie

variable {α : Type}

/-- Every branch is that of a name, and no two are of one name. -/
structure Literal (branches : List (Step × Trie α)) : Prop where
  steps : branches.Pairwise fun a b => (a.1 == b.1) = false
  literal : ∀ branch ∈ branches, ∃ seg, branch.1 = .literal seg

theorem Literal.tail {branch : Step × Trie α} {rest : List (Step × Trie α)}
    (h : Literal (branch :: rest)) : Literal rest :=
  ⟨(List.pairwise_cons.mp h.steps).2, (List.forall_mem_cons.mp h.literal).2⟩

/-- After the branch of a name there is no other of the name. -/
theorem Literal.branch?_tail {branch : Step × Trie α} {rest : List (Step × Trie α)}
    (h : Literal (branch :: rest)) {seg : Seg} (hsame : (branch.1 == .literal seg) = true) :
    branch? rest (.literal seg) = none := by
  refine branch?_eq_none_iff.mpr fun other hother hkey => ?_
  have hmissed := (List.pairwise_cons.mp h.steps).1 other hother
  rw [Step.beq_iff_key.mpr ((Step.beq_iff_key.mp hsame).trans hkey.symm)] at hmissed
  cases hmissed

/-- Every node on a path branches by names only. -/
def LiteralAt (top : Trie α) : Prop :=
  ∀ (path : Path) node, top.at? path.steps = some node → Literal node.branches

/-- The frame has the branches that the trie has at its path. -/
def Leads (top : Trie α) (frame : Frame α) : Prop :=
  ∃ node, top.at? frame.path.steps = some node ∧ node.branches = frame.branches

theorem Leads.at?_concat {top : Trie α} {frame : Frame α} (h : top.Leads frame) (seg : Seg) :
    top.at? (frame.path ++ [seg]).steps = branch? frame.branches (.literal seg) := by
  obtain ⟨node, hnode, hbranches⟩ := h
  rw [at?_steps_append, hnode, Option.bind_some, at?_steps_singleton, hbranches]

theorem LiteralAt.of_leads {top : Trie α} (htop : top.LiteralAt) {frame : Frame α}
    (h : top.Leads frame) : Literal frame.branches := by
  obtain ⟨node, hnode, hbranches⟩ := h
  exact hbranches ▸ htop _ node hnode

/-- Wherever a trie of paths branches, it does so by a name on one of the paths. -/
theorem Holds.exists_seg {trie node : Trie α} {entries : List (List Step × α)}
    (h : trie.Holds entries) (hpaths : ∀ entry ∈ entries, ∃ path : Path, entry.1 = path.steps)
    {steps : List Step} (hnode : trie.at? steps = some node) {branch : Step × Trie α}
    (hbranch : branch ∈ node.branches) :
    ∃ entry ∈ entries, ∃ (path : Path) (seg : Seg), entry.1 = path.steps ∧ seg ∈ path ∧
      branch.1 = .literal seg := by
  obtain ⟨entry, hentry, hpasses⟩ := h.exists_of_branch hnode hbranch
  obtain ⟨path, hpath⟩ := hpaths entry hentry
  have hkey : branch.1.key ∈ path.map Sum.inl := by
    rw [← stepKeys_steps, ← hpath]
    refine hpasses.mem ?_
    rw [stepKeys, List.map_append]
    exact List.mem_append_right _ List.mem_cons_self
  obtain ⟨seg, hseg, hsame⟩ := List.mem_map.mp hkey
  exact ⟨entry, hentry, path, seg, hpath, hseg, Step.eq_literal_of_key hsame.symm⟩

theorem Holds.literalAt {trie : Trie α} {entries : List (List Step × α)} (h : trie.Holds entries)
    (hpaths : ∀ entry ∈ entries, ∃ path : Path, entry.1 = path.steps) : trie.LiteralAt := by
  intro path node hnode
  obtain ⟨hsteps, -⟩ := h.deterministic.at? hnode
  refine ⟨hsteps, fun branch hbranch => ?_⟩
  obtain ⟨_, -, _, seg, -, -, hseg⟩ := h.exists_seg hpaths hnode hbranch
  exact ⟨seg, hseg⟩

end Trie

namespace Walker

variable {α : Type}

/-- A literal step leads to the child of its name, whatever that is. -/
def ByName {m : Type → Type} (walker : Walker m α) : Prop :=
  ∀ name value seg, walker.leads (.literal name) value seg = (name == seg)

variable {walker : Walker Build α} {branches : List (Step × Trie α)} {seg : Seg}

/-! ### Slots -/

/-- Only the branch of a name leads to its slot, and whatever the slot holds. -/
theorem ByName.leads_eq (hnames : walker.ByName) (hliteral : Trie.Literal branches)
    {branch : Step × Trie α} (hbranch : branch ∈ branches) (value : Node) (seg : Seg) :
    walker.leads branch.1 value seg = (branch.1 == .literal seg) := by
  obtain ⟨name, hname⟩ := hliteral.literal branch hbranch
  rw [hname, hnames]
  rfl

theorem settle_of_branch?_none (hnames : walker.ByName) (hliteral : Trie.Literal branches)
    (h : Trie.branch? branches (.literal seg) = none) (path : Path) (current : Option Node) :
    walker.settle path seg branches current = pure (current, []) := by
  induction branches with
  | nil => rfl
  | cons branch rest ih =>
      have hleads := hnames.leads_eq hliteral List.mem_cons_self (current.getD .null) seg
      obtain ⟨step, trie⟩ := branch
      rw [Trie.branch?] at h
      split at h
      · cases h
      · rename_i hmissed
        rw [settle, hleads, if_neg hmissed]
        exact ih hliteral.tail h

/-- A slot is settled by what lies on the branch of its name. -/
theorem settle_of_branch? (hnames : walker.ByName) (hliteral : Trie.Literal branches)
    {trie : Trie α} (h : Trie.branch? branches (.literal seg) = some trie) (path : Path)
    (current : Option Node) :
    walker.settle path seg branches current = do
      let outcome ← walker.actAll path trie.values current
      return (outcome, trie.branches) := by
  induction branches with
  | nil => cases h
  | cons branch rest ih =>
      have hleads := hnames.leads_eq hliteral List.mem_cons_self (current.getD .null) seg
      obtain ⟨step, held⟩ := branch
      rw [Trie.branch?] at h
      rw [settle, hleads]
      split at h
      · rename_i hsame
        cases h
        rw [if_pos hsame]
        refine bind_congr fun outcome => ?_
        rw [settle_of_branch?_none hnames hliteral.tail (hliteral.branch?_tail hsame), pure_bind]
        show pure (outcome, trie.branches ++ []) = _
        rw [List.append_nil]
      · rename_i hmissed
        rw [if_neg hmissed]
        exact ih hliteral.tail h

/-- What is run on a slot is what lies on the branch of its name. -/
theorem runsIn_iff (hnames : walker.ByName) (hliteral : Trie.Literal branches) {path : Path}
    {current now : Option Node} {label : Label} {value : α} :
    walker.RunsIn path seg branches current label value now ↔
      ∃ trie, Trie.branch? branches (.literal seg) = some trie ∧
        walker.Hands path trie.values current label value now := by
  induction branches with
  | nil =>
      constructor
      · intro h
        cases h
      · rintro ⟨trie, htrie, -⟩
        cases htrie
  | cons branch rest ih =>
      have hleads := hnames.leads_eq hliteral List.mem_cons_self (current.getD .null) seg
      obtain ⟨step, held⟩ := branch
      rw [Trie.branch?]
      by_cases hsame : (step == .literal seg) = true
      · rw [if_pos hsame]
        constructor
        · intro h
          cases h with
          | here _ hhands => exact ⟨held, rfl, hhands⟩
          | skip hmissed _ =>
              rw [hleads.trans hsame] at hmissed
              cases hmissed
          | after _ _ hrest =>
              -- A second branch that leads here would be of the same name.
              obtain ⟨other, hother, -⟩ := hrest.leadsTo
              obtain ⟨value, hvalue⟩ := hother.leads
              rw [hnames.leads_eq hliteral.tail hother.mem, Step.beq_iff_key] at hvalue
              have hnone := hliteral.branch?_tail hsame
              exact absurd hvalue (Trie.branch?_eq_none_iff.mp hnone other hother.mem)
        · rintro ⟨trie, htrie, hhands⟩
          cases htrie
          exact .here (hleads.trans hsame) hhands
      · rw [if_neg hsame, ← ih hliteral.tail]
        have hmissed := hleads.trans (Bool.eq_false_iff.mpr hsame)
        constructor
        · intro h
          cases h with
          | here hhere _ => rw [hmissed] at hhere; cases hhere
          | skip _ hrest => exact hrest
          | after hhere _ _ => rw [hmissed] at hhere; cases hhere
        · exact .skip hmissed

/-! ### Frames -/

variable {top : Trie α}

theorem leads_of_descends (hnames : walker.ByName) (htop : top.LiteralAt) {frame deeper : Frame α}
    (hframe : top.Leads frame) (h : walker.Descends frame deeper) : top.Leads deeper := by
  obtain ⟨hvisit, hsettle, hbelow⟩ := h
  rename_i seg child start value below after
  have hliteral := htop.of_leads hframe
  cases hbranch : Trie.branch? frame.branches (.literal seg) with
  | none =>
      rw [settle_of_branch?_none hnames hliteral hbranch] at hsettle
      cases hsettle
      exact absurd rfl hbelow
  | some trie =>
      rw [settle_of_branch? hnames hliteral hbranch] at hsettle
      obtain ⟨outcome, between, hrun, hsettle⟩ := run_bind_ok.mp hsettle
      cases hsettle
      exact ⟨trie, (hframe.at?_concat seg).trans hbranch, rfl⟩

/-- Along names a walk is led to the place they make up, and to no other. -/
theorem Led.place_eq (hnames : walker.ByName) {start : Frame α} (hroot : start.path = [])
    {steps : List Step} {place path : Path} (h : walker.Led start top steps place)
    (hpath : stepKeys steps = stepKeys path.steps) : place = path := by
  have hsame : ∀ {steps : List Step} {place path : Path},
      List.Forall₂ (fun step seg => ∃ value, walker.leads step value seg = true) steps place →
      stepKeys steps = path.map Sum.inl → place = path := by
    intro steps place path h
    induction h generalizing path with
    | nil => intro hpath; exact (List.map_eq_nil_iff.mp hpath.symm).symm
    | cons hleads _ ih =>
        intro hpath
        cases path with
        | nil => cases hpath
        | cons seg rest =>
            obtain ⟨hkey, hrest⟩ := List.cons.inj hpath
            obtain ⟨value, hvalue⟩ := hleads
            rw [Step.eq_literal_of_key hkey, hnames] at hvalue
            rw [ih hrest, eq_of_beq hvalue]
  exact hsame (h.forall₂ hroot) (hpath.trans (stepKeys_steps path))

/-! ### Where nothing was run on the way -/

/-- A walk along names, begun at the root of a tree and the top of a trie. -/
structure Begins (walker : Walker Build α) (top : Trie α) (start : Frame α) : Prop where
  names : walker.ByName
  literal : top.LiteralAt
  path : start.path = []
  branches : start.branches = top.branches
  distinct : start.node.Distinct

variable {start frame : Frame α}

/-- Every frame of the walk has left what the trie has at its path. -/
theorem Begins.leads (h : walker.Begins top start) (henters : walker.Enters start frame) :
    top.Leads frame := by
  induction henters with
  | refl => exact ⟨top, by rw [h.path]; rfl, h.branches.symm⟩
  | tail _ hlast ih => exact leads_of_descends h.names h.literal ih hlast

/-- A branch that leads to a slot where nothing is run has no values. -/
theorem values_eq_nil_of_quiet (hnames : walker.ByName) {child : Node} {trie : Trie α}
    (h : walker.Quiet branches seg child)
    (hbranch : Trie.branch? branches (.literal seg) = some trie) : trie.values = [] := by
  obtain ⟨step, hkey, hmem⟩ := Trie.mem_of_branch? hbranch
  refine h _ hmem ?_
  rw [Step.eq_literal_of_key hkey, hnames]
  exact beq_self_eq_true seg

/-- A walk that succeeds goes down to every place on the way to a node of the trie. -/
theorem Begins.exists_enters (h : walker.Begins top start) {rebuilt : Node} {after : Label}
    (hrun : walker.rebuildFrame start = .ok (rebuilt, after)) {path : Path} :
    ∀ {rest : Path} {last : Trie α} {node : Node}, rest ≠ [] →
      top.at? (path ++ rest).steps = some last → start.node.at? path = some node →
      (∀ acted, acted <+: path → ¬walker.ActsAt start acted) →
      ∃ frame, walker.Enters start frame ∧ frame.path = path ∧ frame.node = node := by
  induction path using List.reverseRecOn with
  | nil =>
      intro rest last node _ _ hnode _
      exact ⟨start, .refl, h.path, Option.some.inj hnode⟩
  | append_singleton path seg ih =>
      intro rest last node hrest hlast hnode hquiet
      rw [Node.at?_append, Option.bind_eq_some_iff] at hnode
      obtain ⟨parent, hparent, hchild⟩ := hnode
      obtain ⟨frame, henters, rfl, rfl⟩ := ih (List.cons_ne_nil seg rest) (by simpa using hlast)
        hparent fun acted hacted => hquiet acted (hacted.trans (List.prefix_append _ _))
      have hchild : frame.node.child? seg = some node := by simpa [Node.at?] using hchild
      obtain ⟨_, _, hframe⟩ := henters.rebuildFrame hrun
      obtain ⟨label, -, -, hvisit, -⟩ := exists_settle hframe hchild
      have hleads := h.leads henters
      rw [Trie.at?_steps_append, hleads.at?_concat, Option.bind_eq_some_iff] at hlast
      obtain ⟨trie, hbranch, hdeeper⟩ := hlast
      -- Nothing is run on this slot, so the walk goes on below it, and on the node itself.
      have hpassed : walker.Quiet frame.branches seg node := hvisit.quiet fun hacts =>
        hquiet _ (List.prefix_refl _) (hacts.of_enters henters)
      have hsettle : (walker.settle (frame.path ++ [seg]) seg frame.branches (some node)).run label
          = .ok ((some node, trie.branches), label) := by
        rw [settle_of_branch? h.names (h.literal.of_leads hleads) hbranch,
          values_eq_nil_of_quiet h.names hpassed hbranch]
        rfl
      have hbelow : trie.branches ≠ [] := by
        obtain ⟨next, others, rfl⟩ := List.exists_cons_of_ne_nil hrest
        intro hnil
        rw [Path.steps, List.map_cons, Trie.at?, hnil] at hdeeper
        cases hdeeper
      exact ⟨_, henters.tail (.mk hvisit hsettle hbelow), rfl, rfl⟩

/-- **What lies at a place is run there, if the tree has a node there.** -/
theorem Begins.runs_of_at? (h : walker.Begins top start) {rebuilt : Node} {after : Label}
    (hrun : walker.rebuildFrame start = .ok (rebuilt, after)) {place : Path} {trie : Trie α}
    {node : Node} (hplace : place ≠ []) (htrie : top.at? place.steps = some trie)
    (hnode : start.node.at? place = some node)
    (hquiet : ∀ acted, acted <+: place → acted ≠ place → ¬walker.ActsAt start acted) {value : α}
    (hvalue : value ∈ trie.values) : ∃ now, walker.Runs start place value now := by
  obtain ⟨path, seg, rfl⟩ := (List.eq_nil_or_concat' place).resolve_left hplace
  rw [Node.at?_append, Option.bind_eq_some_iff] at hnode
  obtain ⟨parent, hparent, hchild⟩ := hnode
  obtain ⟨frame, henters, rfl, rfl⟩ :=
    h.exists_enters hrun (List.cons_ne_nil seg []) htrie hparent (quiet_above hquiet)
  have hchild : frame.node.child? seg = some node := by simpa [Node.at?] using hchild
  obtain ⟨_, _, hframe⟩ := henters.rebuildFrame hrun
  obtain ⟨label, outcome, ending, hvisit, hsettle⟩ := exists_settle hframe hchild
  have hleads := h.leads henters
  have hliteral := h.literal.of_leads hleads
  rw [hleads.at?_concat] at htrie
  rw [settle_of_branch? h.names hliteral htrie] at hsettle
  obtain ⟨_, _, hacts, -⟩ := run_bind_ok.mp hsettle
  obtain ⟨now, hhands⟩ := hands_of_actAll hacts hvalue
  exact ⟨now, frame, seg, node, label, henters, hvisit, rfl,
    (runsIn_iff h.names hliteral).mpr ⟨trie, htrie, hhands⟩⟩

/-- **What is run at a place lies there, and is run on the node that the tree has there.** -/
theorem Begins.at?_of_runs (h : walker.Begins top start) {place : Path} {value : α}
    {now : Option Node} (hruns : walker.Runs start place value now)
    (hquiet : ∀ acted, acted <+: place → acted ≠ place → ¬walker.ActsAt start acted) :
    ∃ node trie label, start.node.at? place = some node ∧ top.at? place.steps = some trie ∧
      walker.Hands place trie.values (some node) label value now := by
  obtain ⟨frame, seg, child, label, henters, hvisit, rfl, hturn⟩ := hruns
  have hnode := henters.at?_of_quiet h.path h.distinct (quiet_above hquiet)
  have hleads := h.leads henters
  obtain ⟨trie, hbranch, hhands⟩ := (runsIn_iff h.names (h.literal.of_leads hleads)).mp hturn
  exact ⟨child, trie, label, Node.at?_concat_of_mem_slots h.distinct hnode hvisit.mem_slots,
    (hleads.at?_concat seg).trans hbranch, hhands⟩

end Walker

end Reducer
