/-
Reductions that run nothing.

A slice may lead far into the state and still end nowhere.  Every container on the way has
been rebuilt by then, and an array that is rebuilt loses its nulls, whoever put them there.
`Node.withoutNulls` is the tree without the nulls in the arrays at given places, and a walk
that acts on no slot makes just that of its tree, the places being those it rebuilds.

The induction is on the height of the branches.  A slot that is not acted on is either left
alone, and then no place at or below it is rebuilt, or it is gone down into with the child it
had, and then the places at and below it are those of the frame further in.
-/
import Reducer.Proofs.Agreement
import Reducer.Proofs.Compaction
import Reducer.Proofs.Equality
import Reducer.Proofs.Walk.Order
import Reducer.Proofs.Walk.Refusal

namespace Reducer

open Build

namespace Node

/-! ### Trees without nulls in some of their arrays -/

mutual

/-- The tree, whose top is at `path`, without the nulls in the arrays at the given places. -/
def withoutNulls (places : Path → Bool) (path : Path) : Node → Node
  | arr label items =>
      let kept := withoutNullsItems places path 0 items
      arr label (if places path then kept.filter (!·.isNull) else kept)
  | obj label fields => obj label (withoutNullsFields places path fields)
  | scalar => scalar
termination_by structural node => node

/-- The items, the first of which is at `position`, each without such nulls. -/
def withoutNullsItems (places : Path → Bool) (path : Path) : Nat → List Node → List Node
  | _, [] => []
  | position, item :: rest =>
      withoutNulls places (path ++ [.index position]) item ::
        withoutNullsItems places path (position + 1) rest
termination_by structural _ items => items

/-- The fields, with values that are without such nulls. -/
def withoutNullsFields (places : Path → Bool) (path : Path) :
    List (String × Node) → List (String × Node)
  | [] => []
  | (name, value) :: rest =>
      (name, withoutNulls places (path ++ [.key name]) value) ::
        withoutNullsFields places path rest
termination_by structural fields => fields

end

variable {places : Path → Bool} {path : Path}

theorem withoutNullsItems_eq (position : Nat) (items : List Node) :
    withoutNullsItems places path position items =
      (items.zipIdx position).map fun item =>
        item.1.withoutNulls places (path ++ [.index item.2]) := by
  induction items generalizing position with
  | nil => rfl
  | cons item rest ih => rw [withoutNullsItems, ih, List.zipIdx_cons, List.map_cons]

theorem withoutNullsFields_eq (fields : List (String × Node)) :
    withoutNullsFields places path fields =
      fields.map fun field => (field.1, field.2.withoutNulls places (path ++ [.key field.1])) := by
  induction fields with
  | nil => rfl
  | cons field rest ih => rw [withoutNullsFields, ih, List.map_cons]

/-- The items of an array, each without such nulls. -/
def keptItems (places : Path → Bool) (path : Path) (items : List Node) : List Node :=
  items.zipIdx.map fun item => item.1.withoutNulls places (path ++ [.index item.2])

theorem withoutNulls_arr (label : Label) (items : List Node) :
    (arr label items).withoutNulls places path =
      arr label (if places path then (keptItems places path items).filter (!·.isNull)
        else keptItems places path items) := by
  rw [withoutNulls, withoutNullsItems_eq, keptItems]

theorem withoutNulls_obj (label : Label) (fields : List (String × Node)) :
    (obj label fields).withoutNulls places path =
      obj label (fields.map fun field =>
        (field.1, field.2.withoutNulls places (path ++ [.key field.1]))) := by
  rw [withoutNulls, withoutNullsFields_eq]

theorem withoutNulls_scalar {node : Node} (h : node.isContainer = false) :
    node.withoutNulls places path = node := by
  cases node with
  | arr label items => cases h
  | obj label fields => cases h
  | _ => rfl

/-- Where the arrays at the places hold no nulls, none are missing. -/
theorem withoutNulls_eq_self {node : Node} (hdistinct : node.Distinct)
    (h : ∀ place label items, places (path ++ place) = true →
      node.at? place = some (.arr label items) → ∀ item ∈ items, item.isNull = false) :
    node.withoutNulls places path = node := by
  induction node using treeInduction generalizing path with
  | scalar node hnode => exact withoutNulls_scalar hnode
  | arr label items ih =>
      have hitems : keptItems places path items = items := by
        refine (List.map_congr_left fun item hitem => ?_).trans (List.zipIdx_map_fst 0 items)
        have hmem := List.fst_mem_of_mem_zipIdx hitem
        have hchild : items[item.2]? = some item.1 := List.mem_zipIdx_iff_getElem?.mp hitem
        refine ih item.1 hmem (distinct_arr.mp hdistinct _ hmem) ?_
        intro place old inner hplace hat
        refine h (.index item.2 :: place) old inner (by simpa using hplace) ?_
        rw [at?, child?, hchild]
        exact hat
      rw [withoutNulls_arr, hitems]
      split
      · rename_i hplace
        have hclean := h [] label items (by simpa using hplace) rfl
        rw [List.filter_eq_self.mpr fun item hitem => by rw [hclean item hitem]; rfl]
      · rfl
  | obj label fields ih =>
      obtain ⟨hkeys, hvalues⟩ := distinct_obj.mp hdistinct
      have hfields : (fields.map fun field =>
          (field.1, field.2.withoutNulls places (path ++ [.key field.1]))) = fields := by
        refine (List.map_congr_left fun field hfield => ?_).trans (List.map_id fields)
        have hchild : Table.get? fields field.1 = some field.2 := Table.get?_of_mem hkeys hfield
        refine congrArg (Prod.mk field.1) (ih field hfield (hvalues field hfield) ?_)
        intro place old inner hplace hat
        refine h (.key field.1 :: place) old inner (by simpa using hplace) ?_
        rw [at?, child?, hchild]
        exact hat
      rw [withoutNulls_obj, hfields]

theorem exists_slot_of_at? {node value : Node} {seg : Seg} {rest : Path}
    (h : node.at? (seg :: rest) = some value) :
    ∃ child, (seg, child) ∈ node.slots ∧ child.at? rest = some value := by
  obtain ⟨child, hchild, hrest⟩ := Option.bind_eq_some_iff.mp h
  exact ⟨child, mem_slots_of_child? hchild, hrest⟩

theorem keepFields_map_some (f : String × Node → Node) (fields : List (String × Node)) :
    keepFields fields (fields.map fun field => some (f field)) =
      fields.map fun field => (field.1, f field) := by
  induction fields with
  | nil => rfl
  | cons field rest ih => rw [List.map_cons, keepFields, ih, List.map_cons]

theorem filterMap_present_some (items : List Node) :
    (items.map some).filterMap Walker.present = items.filter (!·.isNull) := by
  rw [List.filterMap_map, ← List.filterMap_eq_filter]
  rfl

/-- At one of the places, refilling the node with such children leaves out the nulls. -/
theorem refill_withoutNulls (node : Node) (label : Label) (hplace : places path = true) :
    (node.refill label (node.slots.map fun slot =>
      some (slot.2.withoutNulls places (path ++ [slot.1])))).Akin
      (node.withoutNulls places path) := by
  refine akin_of_toJson_eq ?_
  cases node with
  | arr old items =>
      have hslots : ((arr old items).slots.map fun slot =>
          some (slot.2.withoutNulls places (path ++ [slot.1]))) =
            (keptItems places path items).map some := by
        rw [slots, keptItems, List.map_map, List.map_map]
        rfl
      rw [hslots, refill, Walker.compact_eq_present, filterMap_present_some,
        withoutNulls_arr, if_pos hplace, toJson, toJson]
  | obj old fields =>
      rw [refill, slots, List.map_map, withoutNulls_obj, toJson_obj, toJson_obj]
      exact congrArg _ (congrArg _ (keepFields_map_some _ fields))
  | _ => rfl

end Node

namespace Walker

variable {α : Type} (walker : Walker Build α)

/-! ### The places a walk rebuilds -/

/-- The walk that begins at `start` rebuilds what is at a place. -/
def Rebuilds (start : Frame α) (place : Path) : Prop :=
  ∃ frame, walker.Enters start frame ∧ frame.path = place

variable {walker} {frame : Frame α} {seg : Seg} {child : Node}

/-- What is rebuilt at or below a slot is rebuilt by the frame that the slot is gone down into. -/
theorem rebuilds_below {place : Path} (hplace : frame.path ++ [seg] <+: place) :
    walker.Rebuilds frame place ↔ ∃ deeper, walker.Descends frame deeper ∧
      deeper.path = frame.path ++ [seg] ∧ walker.Rebuilds deeper place := by
  constructor
  · rintro ⟨last, henters, rfl⟩
    rcases Relation.ReflTransGen.cases_head henters with rfl | ⟨deeper, hdescends, hrest⟩
    · exact absurd hplace.length_le (by simp)
    · refine ⟨deeper, hdescends, ?_, last, hrest, rfl⟩
      -- Both are the part of the place that is one longer than the path of the frame.
      obtain ⟨other, hpath⟩ := hdescends.path_eq
      have hpre : deeper.path <+: last.path := Enters.prefix_path hrest
      have hlength : deeper.path.length = (frame.path ++ [seg]).length := by simp [hpath]
      exact (List.prefix_of_prefix_length_le hpre hplace hlength.le).eq_of_length hlength
  · rintro ⟨deeper, hdescends, -, last, henters, rfl⟩
    exact ⟨last, .head hdescends henters, rfl⟩

/-! ### Walks that act on no slot -/

variable {places : Path → Bool}

/-- Below a slot that is only passed, a frame has its child and the branches left over. -/
theorem Descends.passes {deeper : Frame α} (h : walker.Descends frame deeper)
    (hquiet : ∀ seg child start, deeper.path = frame.path ++ [seg] →
      walker.Visits frame seg child start → walker.Quiet frame.branches seg child) :
    ∃ seg, deeper.path = frame.path ++ [seg] ∧ (seg, deeper.node) ∈ frame.node.slots ∧
      deeper.branches = walker.below frame.branches seg deeper.node ∧ deeper.branches ≠ [] := by
  obtain ⟨hvisit, hsettle, hbelow⟩ := h
  rw [settle_of_quiet (hquiet _ _ _ rfl hvisit)] at hsettle
  cases hsettle
  exact ⟨_, rfl, hvisit.mem_slots, rfl, hbelow⟩

theorem Descends.passes_of_idle {deeper : Frame α} (h : walker.Descends frame deeper)
    (hidle : ¬walker.ActsAt frame deeper.path) :
    ∃ seg, deeper.path = frame.path ++ [seg] ∧ (seg, deeper.node) ∈ frame.node.slots ∧
      deeper.branches = walker.below frame.branches seg deeper.node ∧ deeper.branches ≠ [] :=
  h.passes fun _ _ _ hpath hvisit => hvisit.quiet (hpath ▸ hidle)

/-- Where no branch is left below a slot, nothing is rebuilt from there on. -/
theorem not_rebuilds_of_below (hdistinct : frame.node.Distinct)
    (hidle : ¬walker.ActsAt frame (frame.path ++ [seg])) (hslot : (seg, child) ∈ frame.node.slots)
    (hbelow : walker.below frame.branches seg child = []) {place : Path}
    (hplace : frame.path ++ [seg] <+: place) : ¬walker.Rebuilds frame place := by
  intro hrebuilds
  obtain ⟨deeper, hdescends, hpath, -⟩ := (rebuilds_below hplace).mp hrebuilds
  obtain ⟨other, hother, hdeeper, hbranches, hmore⟩ := hdescends.passes_of_idle (hpath ▸ hidle)
  obtain rfl : seg = other := by simpa [hpath] using hother
  have hchild : deeper.node = child := by
    have hsame := Node.child?_of_mem_slots hdistinct hdeeper
    rw [Node.child?_of_mem_slots hdistinct hslot] at hsame
    exact (Option.some.inj hsame).symm
  rw [hchild, hbelow] at hbranches
  exact hmore hbranches

/-- Where a slot is gone down into, the frame there rebuilds all from there on. -/
theorem rebuilds_deeper {deeper : Frame α} (hdistinct : frame.node.Distinct)
    (hdescends : walker.Descends frame deeper) {place : Path} (hplace : deeper.path <+: place) :
    walker.Rebuilds frame place ↔ walker.Rebuilds deeper place := by
  obtain ⟨seg, hpath⟩ := hdescends.path_eq
  rw [rebuilds_below (hpath ▸ hplace)]
  constructor
  · rintro ⟨other, hother, hsame, hrebuilds⟩
    rwa [hdescends.unique hdistinct hother (hsame.trans hpath.symm)] at hrebuilds
  · exact fun hrebuilds => ⟨deeper, hdescends, hpath, hrebuilds⟩

/-- A slot that is not acted on keeps its child, but for the nulls that go where it is rebuilt. -/
theorem Visited.akinSlot_of_idle {outcome : Option Node} (hdistinct : frame.node.Distinct)
    (hidle : ¬walker.ActsAt frame (frame.path ++ [seg]))
    (hplaces : ∀ place, frame.path <+: place →
      (places place = true ↔ walker.Rebuilds frame place))
    (h : walker.Visited frame (seg, child) outcome)
    (hdeeper : ∀ deeper rebuilt after, walker.Descends frame deeper → deeper.node = child →
      (∀ place, deeper.path <+: place → (places place = true ↔ walker.Rebuilds deeper place)) →
      walker.rebuildFrame deeper = .ok (rebuilt, after) →
      rebuilt.Akin (child.withoutNulls places deeper.path)) :
    Node.AkinSlot outcome (some (child.withoutNulls places (frame.path ++ [seg]))) := by
  obtain ⟨start, after, hvisit, -⟩ := id h
  have hslot : (seg, child) ∈ frame.node.slots := hvisit.mem_slots
  have hfrom : ∀ place, frame.path ++ [seg] <+: place →
      (places place = true ↔ walker.Rebuilds frame place) :=
    fun place hplace => hplaces place ((List.prefix_append _ _).trans hplace)
  rcases h.of_quiet (hvisit.quiet hidle) with ⟨hbelow, rfl⟩ |
    ⟨deeper, rebuilt, ending, hdescends, hpath, hnode, -, hrun, rfl⟩
  · have hself : child.withoutNulls places (frame.path ++ [seg]) = child := by
      refine Node.withoutNulls_eq_self (Node.inherited_distinct.of_mem_slots hdistinct hslot) ?_
      intro place _ _ hplace
      have hlonger := List.prefix_append (frame.path ++ [seg]) place
      exact absurd ((hfrom _ hlonger).mp hplace)
        (not_rebuilds_of_below hdistinct hidle hslot hbelow hlonger)
    rw [hself]
    exact .some (Node.akin_refl child)
  · rw [← hpath] at hfrom ⊢
    refine .some (hdeeper deeper rebuilt ending hdescends hnode (fun place hplace => ?_) hrun)
    exact (hfrom place hplace).trans (rebuilds_deeper hdistinct hdescends hplace)

/-- **A walk that acts on no slot leaves out nulls where it rebuilds, and nothing else.** -/
theorem akin_of_idle {rebuilt : Node} {after : Label} (hdistinct : frame.node.Distinct)
    (hidle : ∀ place, ¬walker.ActsAt frame place)
    (hplaces : ∀ place, frame.path <+: place →
      (places place = true ↔ walker.Rebuilds frame place))
    (h : walker.rebuildFrame frame = .ok (rebuilt, after)) :
    rebuilt.Akin (frame.node.withoutNulls places frame.path) := by
  induction hheight : Trie.branchesHeight frame.branches using Nat.strong_induction_on
    generalizing frame rebuilt after with
  | _ height ih =>
      cases hnode : frame.node.isContainer with
      | false =>
          rw [rebuildFrame_of_not_isContainer hnode] at h
          cases h
          rw [Node.withoutNulls_scalar hnode]
          exact Node.akin_refl _
      | true =>
          obtain ⟨outcomes, between, new, hvisits, -, rfl⟩ := rebuildFrame_ok hnode h
          have hslots : List.Forall₂ (walker.Visited frame) frame.node.slots outcomes :=
            forall₂_visitedAt hvisits
          have hkept : List.Forall₂ Node.AkinSlot outcomes (frame.node.slots.map fun slot =>
              some (slot.2.withoutNulls places (frame.path ++ [slot.1]))) := by
            refine List.forall₂_map_right_iff.mpr (hslots.flip.imp ?_)
            rintro outcome ⟨seg, child⟩ hvisited
            refine Visited.akinSlot_of_idle hdistinct (hidle _) hplaces hvisited ?_
            rintro deeper rebuilt ending hdescends rfl hbelow hrun
            obtain ⟨_, -, hslot, -⟩ := hdescends.passes_of_idle (hidle _)
            exact ih _ (hheight ▸ hdescends.height_lt)
              (Node.inherited_distinct.of_mem_slots hdistinct hslot)
              (fun place hacts => hidle place (hacts.of_descends hdescends)) hbelow hrun rfl
          have hplace : places frame.path = true :=
            (hplaces _ (List.prefix_refl _)).mpr ⟨frame, .refl, rfl⟩
          exact Node.akin_trans ((Node.akin_refl frame.node).refill new new hkept)
            (Node.refill_withoutNulls frame.node new hplace)

/-- A walk that runs nothing acts on no slot. -/
theorem not_actsAt_of_not_runs (h : ∀ place value now, ¬walker.Runs frame place value now)
    (place : Path) : ¬walker.ActsAt frame place := by
  rintro ⟨branch, hleads, hvalues⟩
  obtain ⟨value, -, now, hruns⟩ := hleads.runs hvalues
  exact h place value now hruns

/-- A walk that runs nothing succeeds, if labels are to be had. -/
theorem rebuildFrame_of_not_runs (hlabel : ∀ label fault, walker.label.run label ≠ .error fault)
    (h : ∀ place value now, ¬walker.Runs frame place value now) :
    ∃ rebuilt after, walker.rebuildFrame frame = .ok (rebuilt, after) := by
  cases hrun : walker.rebuildFrame frame with
  | ok result => exact ⟨result.1, result.2, rfl⟩
  | error fault =>
      obtain ⟨place, value, now, -, hruns, -⟩ := exists_runs_of_error hlabel hrun
      exact absurd hruns (h place value now)

/-! ### Seen before the walk -/

/-- No branch with values leads to a child, nor do the branches left over, further down. -/
inductive Idle (walker : Walker Build α) : List (Step × Trie α) → Node → Prop
  | mk {branches node} (hquiet : ∀ slot ∈ node.slots, walker.Quiet branches slot.1 slot.2)
      (hbelow : ∀ slot ∈ node.slots, Idle walker (walker.below branches slot.1 slot.2) slot.2) :
      Idle walker branches node

theorem idle_nil (node : Node) : walker.Idle [] node := by
  induction node using Node.childInduction with
  | step node ih =>
      refine .mk (fun _ _ => List.forall_mem_nil _) fun slot hslot => ?_
      exact ih slot.2 (Node.mem_children_of_mem_slots hslot)

/-- Branches without values have to be followed, whatever they lead to. -/
theorem idle_of_values_eq_nil {branches : List (Step × Trie α)} {node : Node}
    (hvalues : ∀ branch ∈ branches, branch.2.values = [])
    (hbelow : ∀ slot ∈ node.slots, walker.Idle (walker.below branches slot.1 slot.2) slot.2) :
    walker.Idle branches node :=
  .mk (fun _ _ branch hbranch _ => hvalues branch hbranch) hbelow

theorem Idle.of_descends {deeper : Frame α} (h : walker.Idle frame.branches frame.node)
    (hdescends : walker.Descends frame deeper) : walker.Idle deeper.branches deeper.node := by
  obtain ⟨hquiet, hbelow⟩ := h
  obtain ⟨seg, -, hslot, hbranches, -⟩ :=
    hdescends.passes fun seg child start _ hvisit => hquiet (seg, child) hvisit.mem_slots
  rw [hbranches]
  exact hbelow _ hslot

theorem Idle.of_enters {last : Frame α} (h : walker.Idle frame.branches frame.node)
    (henters : walker.Enters frame last) : walker.Idle last.branches last.node := by
  induction henters with
  | refl => exact h
  | tail _ hdescends ih => exact ih.of_descends hdescends

/-- **Where no branch with values leads to anything in the tree, no slot is acted on.** -/
theorem Idle.not_actsAt (h : walker.Idle frame.branches frame.node) (place : Path) :
    ¬walker.ActsAt frame place := by
  rintro ⟨branch, ⟨last, seg, child, label, henters, hvisit, rfl, hleads⟩, hvalues⟩
  obtain ⟨hquiet, -⟩ := h.of_enters henters
  have hslot : walker.Quiet last.branches seg child := hquiet _ hvisit.mem_slots
  rcases hleads.leads_or with hled | ⟨other, hother, hmore, hled⟩
  · exact hvalues (hslot branch hleads.mem hled)
  · exact hmore (hslot other hother.mem hled)

end Walker

namespace Registry

/-- The reduction runs no effect. -/
def Idle (registry : Registry) (state : Node) (action : Action) (label : Label) : Prop :=
  ∀ pass start, registry.Starts state action label pass start →
    ∀ place effect now, ¬pass.walker.Runs start place effect now

/-- The reduction rebuilds what is at a place. -/
def Rebuilds (registry : Registry) (state : Node) (action : Action) (label : Label)
    (place : Path) : Prop :=
  ∃ pass start, registry.Starts state action label pass start ∧
    pass.walker.Rebuilds start place

variable {registry : Registry} {state : Node} {action : Action} {label : Label}

/-- A reduction that runs nothing succeeds, and leaves out nulls where it rebuilds. -/
theorem akin_of_idle {places : Path → Bool} (hstate : state.Distinct)
    (hidle : registry.Idle state action label)
    (hplaces : ∀ place, places place = true ↔ registry.Rebuilds state action label place) :
    ∃ next after, (registry.reduce state action).run label = .ok (next, after) ∧
      next.Akin (state.withoutNulls places []) := by
  rcases registry.reduce_cases state action label with ⟨htrie, hrun⟩ | ⟨pass, start, hstart, hrun⟩
  · refine ⟨state, label, hrun, ?_⟩
    have hnone : ∀ place, places place ≠ true := by
      intro place hplace
      obtain ⟨pass, start, ⟨hsome, -⟩, -⟩ := (hplaces place).mp hplace
      rw [htrie] at hsome
      cases hsome
    rw [Node.withoutNulls_eq_self hstate fun place _ _ hplace => absurd hplace (hnone _)]
    exact Node.akin_refl state
  · obtain ⟨hroot, hnode, -⟩ := hstart.frame
    have hwalk : ∀ place, places place = true ↔ pass.walker.Rebuilds start place := by
      refine fun place => (hplaces place).trans ⟨?_, fun h => ⟨pass, start, hstart, h⟩⟩
      rintro ⟨other, begin, hother, hrebuilds⟩
      obtain ⟨rfl, rfl⟩ := hstart.unique hother
      exact hrebuilds
    have hruns := hidle pass start hstart
    obtain ⟨next, after, hwalked⟩ :=
      Walker.rebuildFrame_of_not_runs (fun _ _ hfails => by cases hfails) hruns
    refine ⟨next, after, hrun.trans hwalked, ?_⟩
    rw [← hnode, ← hroot]
    exact Walker.akin_of_idle (hnode ▸ hstate) (Walker.not_actsAt_of_not_runs hruns)
      (fun place _ => hwalk place) hwalked

/-- A reduction runs nothing if nothing with values can be led to in the state. -/
theorem idle_of_branches (h : ∀ pass start, registry.Starts state action label pass start →
    pass.walker.Idle start.branches start.node) : registry.Idle state action label := by
  intro pass start hstart place effect now hruns
  obtain ⟨branch, hleads, heffect⟩ := hruns.leadsIn
  exact (h pass start hstart).not_actsAt place ⟨branch, hleads, List.ne_nil_of_mem heffect⟩

/--
**A reduction that runs no effect changes nothing but for the nulls of arrays it rebuilds.**
It succeeds, and the next state is the state without the nulls in just these arrays, with all
else in it and every order of keys and items as they were.  If there are no such nulls then the
next state has the content of the state and is equal to it.
-/
theorem reduce_of_idle (hstate : state.Distinct) (hidle : registry.Idle state action label) :
    ∃ next after places, (registry.reduce state action).run label = .ok (next, after) ∧
      (∀ place, places place = true ↔ registry.Rebuilds state action label place) ∧
      next.toJson = (state.withoutNulls places []).toJson ∧
      ((∀ place old items, registry.Rebuilds state action label place →
          state.at? place = some (.arr old items) → ∀ item ∈ items, item.isNull = false) →
        next.toJson = state.toJson ∧ next.eqv state = true) := by
  classical
  have hplaces : ∀ place, decide (registry.Rebuilds state action label place) = true ↔
      registry.Rebuilds state action label place := fun _ => decide_eq_true_iff
  obtain ⟨next, after, hrun, hnext⟩ := akin_of_idle hstate hidle hplaces
  refine ⟨next, after, _, hrun, hplaces, hnext.toJson_eq, fun hclean => ?_⟩
  have hself : state.withoutNulls
      (fun place => decide (registry.Rebuilds state action label place)) [] = state :=
    Node.withoutNulls_eq_self hstate fun place old items hplace =>
      hclean place old items ((hplaces place).mp hplace)
  rw [hself] at hnext
  have hdistinct : next.Distinct := (Node.akin_symm hnext).distinct hstate
  exact ⟨hnext.toJson_eq, Node.eqv_of_toJson_eq hdistinct hstate hnext.toJson_eq⟩

/-! ### A name that is not there -/

/-- Drops what is at `gone` in any item of the list. -/
def dropGone : Registry :=
  ofEffects "drop"
    [⟨[.key "list", .predicate ⟨0, fun _ _ _ _ => true, none⟩, .key "gone"], some .delete⟩]

/-- Two lists, with a null in each, and a null elsewhere. -/
def listsWithNulls : Node :=
  .obj 0 [("list", .arr 1 [.null, .obj 2 [("a", .null)]]), ("other", .arr 3 [.null])]

/-- A list without nulls in it, though there is one further down. -/
def listWithoutNull : Node :=
  .obj 0 [("list", .arr 1 [.obj 2 [("a", .null)]])]

/-- What is below the items of the list leads to nothing in an object with the key `a` only. -/
theorem idle_gone (pass : Pass) (label : Label) (value : Node) :
    pass.walker.Idle [(.literal (.key "gone"), .node [.delete] [])]
      (.obj label [("a", value)]) := by
  have hunmatched : pass.walker.Unmatched [(.literal (.key "gone"), .node [.delete] [])]
      (.key "a") value := List.forall_mem_singleton.mpr rfl
  refine .mk (List.forall_mem_singleton.mpr hunmatched.quiet) (List.forall_mem_singleton.mpr ?_)
  rw [Walker.below_of_unmatched hunmatched]
  exact Walker.idle_nil value

/-- And so the whole does in a list of such objects and nulls. -/
theorem idle_dropGone (pass : Pass) :
    pass.walker.Idle [(.predicate ⟨0, fun _ _ _ _ => true, none⟩ false,
      .node [] [(.literal (.key "gone"), .node [.delete] [])])]
      (.arr 1 [.null, .obj 2 [("a", .null)]]) := by
  refine Walker.idle_of_values_eq_nil (List.forall_mem_singleton.mpr rfl) ?_
  refine List.forall_mem_cons.mpr ⟨?_, List.forall_mem_singleton.mpr (idle_gone pass 2 .null)⟩
  exact .mk (List.forall_mem_nil _) (List.forall_mem_nil _)

theorem idle_listsWithNulls : dropGone.Idle listsWithNulls ⟨"drop", .null⟩ 4 := by
  refine idle_of_branches fun pass start hstart => ?_
  obtain ⟨rfl, rfl⟩ := (Starts.mk rfl rfl).unique hstart
  refine Walker.idle_of_values_eq_nil (List.forall_mem_singleton.mpr rfl) ?_
  exact List.forall_mem_cons.mpr ⟨idle_dropGone _,
    List.forall_mem_singleton.mpr (Walker.idle_nil _)⟩

theorem idle_listWithoutNull : dropGone.Idle listWithoutNull ⟨"drop", .null⟩ 3 := by
  refine idle_of_branches fun pass start hstart => ?_
  obtain ⟨rfl, rfl⟩ := (Starts.mk rfl rfl).unique hstart
  refine Walker.idle_of_values_eq_nil (List.forall_mem_singleton.mpr rfl) ?_
  refine List.forall_mem_singleton.mpr ?_
  refine Walker.idle_of_values_eq_nil (List.forall_mem_singleton.mpr rfl) ?_
  exact List.forall_mem_singleton.mpr (idle_gone _ 2 .null)

theorem distinct_listsWithNulls : listsWithNulls.Distinct := by
  simp [listsWithNulls, Node.Distinct, Node.DistinctItems, Node.DistinctFields, Table.Distinct,
    Table.keys]

theorem distinct_listWithoutNull : listWithoutNull.Distinct := by
  simp [listWithoutNull, Node.Distinct, Node.DistinctItems, Node.DistinctFields, Table.Distinct,
    Table.keys]

/-- The only array in the state with one list has no null in it. -/
theorem clean_listWithoutNull {place : Path} {old : Label} {items : List Node}
    (h : listWithoutNull.at? place = some (.arr old items)) :
    ∀ item ∈ items, item.isNull = false := by
  rcases place with _ | ⟨_, place⟩
  · cases h
  obtain ⟨list, hslot, hlist⟩ := Node.exists_slot_of_at? h
  cases List.mem_singleton.mp hslot
  rcases place with _ | ⟨_, place⟩
  · cases hlist
    exact List.forall_mem_singleton.mpr rfl
  obtain ⟨item, hslot, hitem⟩ := Node.exists_slot_of_at? hlist
  cases List.mem_singleton.mp hslot
  rcases place with _ | ⟨_, place⟩
  · cases hitem
  obtain ⟨value, hslot, hvalue⟩ := Node.exists_slot_of_at? hitem
  cases List.mem_singleton.mp hslot
  cases place <;> cases hvalue

/--
The list that was rebuilt loses its null, the other list and the object keep theirs; and where
the rebuilt list has no null, the state is as it was.
-/
theorem reduce_of_idle_dropGone :
    (listsWithNulls.Distinct ∧ dropGone.Idle listsWithNulls ⟨"drop", .null⟩ 4 ∧
      ∃ next after places,
        (dropGone.reduce listsWithNulls ⟨"drop", .null⟩).run 4 = .ok (next, after) ∧
        (∀ place, places place = true ↔
          dropGone.Rebuilds listsWithNulls ⟨"drop", .null⟩ 4 place) ∧
        next.toJson = (listsWithNulls.withoutNulls places []).toJson ∧
        next.toJson =
          .obj [("list", .arr [.obj [("a", .null)]]), ("other", .arr [.null])]) ∧
    (listWithoutNull.Distinct ∧ dropGone.Idle listWithoutNull ⟨"drop", .null⟩ 3 ∧
      ∃ next after, (dropGone.reduce listWithoutNull ⟨"drop", .null⟩).run 3 = .ok (next, after) ∧
        next.toJson = listWithoutNull.toJson ∧ next.eqv listWithoutNull = true) := by
  refine ⟨⟨distinct_listsWithNulls, idle_listsWithNulls, ?_⟩, distinct_listWithoutNull,
    idle_listWithoutNull, ?_⟩
  · obtain ⟨next, after, places, hrun, hplaces, hnext, -⟩ :=
      reduce_of_idle distinct_listsWithNulls idle_listsWithNulls
    refine ⟨next, after, places, hrun, hplaces, hnext, ?_⟩
    cases hrun
    rfl
  · obtain ⟨next, after, places, hrun, -, -, hclean⟩ :=
      reduce_of_idle distinct_listWithoutNull idle_listWithoutNull
    exact ⟨next, after, hrun, hclean fun place old items _ hat => clean_listWithoutNull hat⟩

end Registry

end Reducer
