/-
What a reduction reports as changed.

A report compares the state with the next one and knows nothing of the trie; the
walk follows the trie and compares nothing.  That the two agree is shown frame by
frame.  Whatever is reported below a frame's node differs in one of its slots, and a
slot that no branch leads to holds the same node as before; so a place that is
reported was come to, or lies where an effect put something.  In the other direction
a container is rebuilt under a label that did not exist before, so it is another node
and is reported, provided the report is still comparing when it gets there.

Two conditions on the state are needed, and every state has both.  Its objects have
distinct keys, since the report looks the old value up by its key.  And its labels
were drawn before the reduction's own, without which a new container might pass for
an old one.
-/
import Reducer.Changes
import Reducer.Proofs.Sharing
import Reducer.Proofs.Walk.Labels

namespace Reducer

open Build

namespace Node

/-! ### What is in a report -/

/-- A slot that held one node and holds another contributes its place, and what changed below. -/
def Differs (path : Path) (old value : Node) (place : Path) : Prop :=
  old.same value = false ∧ (place = path ∨ place ∈ changesBelow path old value)

theorem mem_changesInFields {path place : Path} {before after : List (String × Node)} :
    place ∈ changesInFields path before after ↔
      ∃ name value, (name, value) ∈ after ∧
        match Table.get? before name with
        | some old => Differs (path ++ [Seg.key name]) old value place
        | none => place = path ++ [.key name] := by
  induction after with
  | nil => simp [changesInFields]
  | cons field rest ih =>
      obtain ⟨name, value⟩ := field
      have hfirst : (place ∈ match Table.get? before name with
          | some old => if old.same value then []
              else (path ++ [Seg.key name]) :: changesBelow (path ++ [Seg.key name]) old value
          | none => [path ++ [Seg.key name]]) ↔
          match Table.get? before name with
          | some old => Differs (path ++ [Seg.key name]) old value place
          | none => place = path ++ [.key name] := by
        cases Table.get? before name with
        | none => simp
        | some old => cases hsame : old.same value <;> simp [Differs, hsame]
      rw [changesInFields, List.mem_append, ih]
      refine (or_congr_left hfirst).trans ?_
      constructor
      · rintro (hhere | ⟨other, held, hmem, hrest⟩)
        · exact ⟨name, value, List.mem_cons_self, hhere⟩
        · exact ⟨other, held, List.mem_cons_of_mem _ hmem, hrest⟩
      · rintro ⟨other, held, hmem, hrest⟩
        rcases List.mem_cons.mp hmem with heq | hlater
        · cases heq
          exact Or.inl hrest
        · exact Or.inr ⟨other, held, hlater, hrest⟩

theorem mem_changesInItems {path place : Path} {position : Nat} {before after : List Node} :
    place ∈ changesInItems path position before after ↔
      ∃ index old value, before[index]? = some old ∧ after[index]? = some value ∧
        Differs (path ++ [.index (position + index)]) old value place := by
  induction after generalizing position before with
  | nil => cases before <;> simp [changesInItems]
  | cons value rest ih =>
      cases before with
      | nil => simp [changesInItems]
      | cons old before =>
          have hfirst : (place ∈ if old.same value then []
              else (path ++ [.index position]) ::
                changesBelow (path ++ [.index position]) old value) ↔
              Differs (path ++ [.index position]) old value place := by
            cases hsame : old.same value <;> simp [Differs, hsame]
          rw [changesInItems, List.mem_append, ih]
          refine (or_congr_left hfirst).trans ?_
          constructor
          · rintro (hhere | ⟨index, was, is, hwas, his, hrest⟩)
            · exact ⟨0, old, value, rfl, rfl, hhere⟩
            · refine ⟨index + 1, was, is, hwas, his, ?_⟩
              rwa [Nat.add_right_comm] at hrest
          · rintro ⟨index, was, is, hwas, his, hrest⟩
            cases index with
            | zero =>
                cases hwas
                cases his
                exact Or.inl hrest
            | succ index =>
                refine Or.inr ⟨index, was, is, hwas, his, ?_⟩
                rwa [Nat.add_right_comm]

theorem changesBelow_of_not_isContainer {path : Path} {old new : Node}
    (h : new.isContainer = false) : changesBelow path old new = [] := by
  cases new with
  | arr label items => cases h
  | obj label fields => cases h
  | _ => cases old <;> rfl

/-- Everything reported below a node lies below its place. -/
theorem prefix_of_mem_changesBelow {old new : Node} {path place : Path}
    (h : place ∈ changesBelow path old new) : path <+: place := by
  induction new using treeInduction generalizing old path with
  | scalar new hnew =>
      rw [changesBelow_of_not_isContainer hnew] at h
      cases h
  | arr label items ih =>
      cases old with
      | arr other before =>
          rw [changesBelow] at h
          split at h
          · obtain ⟨index, was, value, -, hvalue, -, hplace⟩ := mem_changesInItems.mp h
            rcases hplace with rfl | hbelow
            · exact List.prefix_append _ _
            · exact (List.prefix_append _ _).trans (ih value (List.mem_of_getElem? hvalue) hbelow)
          · cases h
      | _ => cases h
  | obj label fields ih =>
      cases old with
      | obj other before =>
          rw [changesBelow, List.mem_append, List.mem_map] at h
          rcases h with hfield | ⟨name, -, rfl⟩
          · obtain ⟨name, value, hvalue, hplace⟩ := mem_changesInFields.mp hfield
            split at hplace
            · obtain ⟨-, rfl | hbelow⟩ := hplace
              · exact List.prefix_append _ _
              · exact (List.prefix_append _ _).trans (ih (name, value) hvalue hbelow)
            · rw [hplace]
              exact List.prefix_append _ _
          · exact List.prefix_append _ _
      | _ => cases h

theorem Differs.prefix_path {path place : Path} {old value : Node}
    (h : Differs path old value place) : path <+: place := by
  obtain ⟨-, rfl | hbelow⟩ := h
  · exact List.prefix_refl _
  · exact prefix_of_mem_changesBelow hbelow

theorem mem_fields_of_mem_slots {node child : Node} {name : String}
    (h : (.key name, child) ∈ node.slots) :
    ∃ label fields, node = .obj label fields ∧ (name, child) ∈ fields := by
  cases node with
  | obj label fields =>
      obtain ⟨field, hfield, heq⟩ := List.mem_map.mp h
      cases heq
      exact ⟨label, fields, rfl, hfield⟩
  | arr label items =>
      obtain ⟨item, hitem, heq⟩ := List.mem_map.mp h
      cases heq
  | _ => cases h

end Node

namespace Walker

variable {α : Type} {walker : Walker Build α}

/-! ### Nothing else is reported -/

/-- The walk came to the place, or acted on a slot on the way there. -/
def Touched (walker : Walker Build α) (start : Frame α) (place : Path) : Prop :=
  walker.Reaches start place ∨ ∃ acted, acted <+: place ∧ walker.ActsAt start acted

theorem Touched.of_descends {start next : Frame α} (hstart : walker.Descends start next)
    {place : Path} (h : walker.Touched next place) : walker.Touched start place := by
  rcases h with hreached | ⟨acted, hpre, hacts⟩
  · exact Or.inl (hreached.of_descends hstart)
  · exact Or.inr ⟨acted, hpre, hacts.of_descends hstart⟩

/-- A slot is emptied by acting on it only. -/
theorem Visited.actsAt_of_none {frame : Frame α} {seg : Seg} {child : Node}
    (h : walker.Visited frame (seg, child) none) : walker.ActsAt frame (frame.path ++ [seg]) := by
  obtain ⟨start, after, hvisit, -⟩ := id h
  refine Classical.byContradiction fun hacts => ?_
  rcases h.of_quiet (hvisit.quiet hacts) with ⟨-, hkept⟩ | ⟨_, _, _, -, -, -, -, -, hkept⟩
  · cases hkept
  · cases hkept

/-- A slot that holds another node was come to. -/
theorem Visited.reaches_of_differs {frame : Frame α} {seg : Seg} {child value : Node}
    (h : walker.Visited frame (seg, child) (some value)) (hdiffers : child.same value = false) :
    walker.Reaches frame (frame.path ++ [seg]) := by
  refine Classical.byContradiction fun hreached => ?_
  have hunmatched : walker.Unmatched frame.branches seg child := by
    obtain ⟨start, after, hvisit, -⟩ := id h
    exact unmatched_of_leadsTo fun branch hbranch =>
      hreached ⟨branch, frame, seg, child, start, .refl, hvisit, rfl, hbranch⟩
  cases h.of_unmatched hunmatched
  rw [Node.same_refl] at hdiffers
  cases hdiffers

/-- What a slot contributes to the report was touched, given that of the frames further in. -/
theorem Visited.touched_of_differs {frame : Frame α} {seg : Seg} {child value : Node}
    {place : Path} (h : walker.Visited frame (seg, child) (some value))
    (hdiffers : Node.Differs (frame.path ++ [seg]) child value place)
    (hdeeper : ∀ deeper rebuilt after, walker.Descends frame deeper → deeper.node = child →
      walker.rebuildFrame deeper = .ok (rebuilt, after) →
      place ∈ Node.changesBelow deeper.path child rebuilt → walker.Touched deeper place) :
    walker.Touched frame place := by
  by_cases hacts : walker.ActsAt frame (frame.path ++ [seg])
  · exact Or.inr ⟨_, hdiffers.prefix_path, hacts⟩
  · obtain ⟨hother, rfl | hbelow⟩ := hdiffers
    · exact Or.inl (h.reaches_of_differs hother)
    · obtain ⟨start, after, hvisit, -⟩ := id h
      rcases h.of_quiet (hvisit.quiet hacts) with ⟨-, hkept⟩ | hdescent
      · cases hkept
        rw [Node.same_refl] at hother
        cases hother
      · obtain ⟨deeper, rebuilt, after, hdescends, hpath, hnode, -, hrun, hvalue⟩ := hdescent
        cases hvalue
        rw [← hpath] at hbelow
        exact (hdeeper deeper value after hdescends hnode hrun hbelow).of_descends hdescends

/-- An array that kept its length kept every slot in its place. -/
theorem getElem?_of_compact {slots : List (Option Node)} {position : Nat} {item : Node}
    (hlength : (compact slots).length = slots.length)
    (hitem : (compact slots)[position]? = some item) : slots[position]? = some (some item) := by
  have hholes : ∀ slot ∈ slots, (!isHole slot) = true := by
    rw [compact_eq, List.length_map] at hlength
    exact List.length_filter_eq_length_iff.mp hlength
  rw [compact_eq, List.filter_eq_self.mpr hholes, List.getElem?_map,
    Option.map_eq_some_iff] at hitem
  obtain ⟨slot, hslot, rfl⟩ := hitem
  cases slot with
  | none => exact absurd (hholes none (List.mem_of_getElem? hslot)) (by simp)
  | some value => exact hslot

/-- Whatever is reported below a frame that succeeds is reported because of one of its slots. -/
theorem exists_slot_of_mem_changesBelow {frame : Frame α} {rebuilt : Node} {after : Label}
    (h : walker.rebuildFrame frame = .ok (rebuilt, after)) (hdistinct : frame.node.Distinct)
    {place : Path} (hplace : place ∈ Node.changesBelow frame.path frame.node rebuilt) :
    (∃ seg child value, walker.Visited frame (seg, child) (some value) ∧
      Node.Differs (frame.path ++ [seg]) child value place) ∨
    ∃ seg child, walker.Visited frame (seg, child) none ∧ place = frame.path ++ [seg] := by
  have hnode : frame.node.isContainer = true := by
    cases hscalar : frame.node.isContainer with
    | true => rfl
    | false =>
        rw [rebuildFrame_of_not_isContainer hscalar] at h
        cases h
        rw [Node.changesBelow_of_not_isContainer hscalar] at hplace
        cases hplace
  obtain ⟨outcomes, between, new, hvisits, -, rfl⟩ := rebuildFrame_ok hnode h
  have hslots : List.Forall₂ (walker.Visited frame) frame.node.slots outcomes :=
    forall₂_visitedAt hvisits
  rcases Node.arr_or_obj hnode with ⟨label, items, hframe⟩ | ⟨label, fields, hframe⟩
  · rw [hframe, Node.slots, List.forall₂_map_left_iff] at hslots
    rw [hframe, Node.refill, Node.changesBelow] at hplace
    have hlength : outcomes.length = items.length := by
      rw [← hslots.length_eq, List.length_zipIdx]
    split at hplace
    · rename_i hsize
      obtain ⟨index, child, value, hchild, hvalue, hdiffers⟩ := Node.mem_changesInItems.mp hplace
      rw [Nat.zero_add] at hdiffers
      have hslot : items.zipIdx[index]? = some (child, index) := by
        rw [List.getElem?_zipIdx, hchild]
        simp
      have hkept := getElem?_of_compact ((eq_of_beq hsize).symm.trans hlength.symm) hvalue
      obtain ⟨outcome, houtcome, hvisited⟩ := getElem?_of_forall₂ hslots hslot
      rw [hkept] at houtcome
      cases houtcome
      exact Or.inl ⟨.index index, child, value, hvisited, hdiffers⟩
    · cases hplace
  · have hkeys : Table.Distinct fields := (Node.distinct_obj.mp (hframe ▸ hdistinct)).1
    rw [hframe, Node.slots, List.forall₂_map_left_iff] at hslots
    rw [hframe, Node.refill, Node.changesBelow, List.mem_append, List.mem_map] at hplace
    rcases hplace with hfield | ⟨name, hname, rfl⟩
    · obtain ⟨name, value, hvalue, hdiffers⟩ := Node.mem_changesInFields.mp hfield
      obtain ⟨child, hchild, hvisited⟩ := Node.mem_keepFields hslots hvalue
      rw [Table.get?_of_mem hkeys hchild] at hdiffers
      exact Or.inl ⟨.key name, child, value, hvisited, hdiffers⟩
    · obtain ⟨hold, hgone⟩ := List.mem_filter.mp hname
      obtain ⟨child, hchild⟩ := Table.exists_of_mem_keys hold
      obtain ⟨outcome, hvisited, hkept⟩ := Node.get?_keepFields hslots hchild
      cases outcome with
      | none => exact Or.inr ⟨.key name, child, hvisited, rfl⟩
      | some value => simp [Table.has, hkept value rfl] at hgone

/-- **Every place reported below a frame was touched by the walk that begins there.** -/
theorem touched_of_mem_changesBelow {frame : Frame α} {rebuilt : Node} {after : Label}
    (h : walker.rebuildFrame frame = .ok (rebuilt, after)) (hdistinct : frame.node.Distinct)
    {place : Path} (hplace : place ∈ Node.changesBelow frame.path frame.node rebuilt) :
    walker.Touched frame place := by
  -- The branches get lower from frame to frame, while the nodes may be ones an effect has made.
  induction hheight : Trie.branchesHeight frame.branches using Nat.strongRecOn
    generalizing frame rebuilt after with
  | ind height ih =>
      rcases exists_slot_of_mem_changesBelow h hdistinct hplace with
        ⟨seg, child, value, hvisited, hdiffers⟩ | ⟨seg, child, hvisited, rfl⟩
      · refine hvisited.touched_of_differs hdiffers ?_
        rintro deeper rebuilt after hdescends rfl hrun hbelow
        obtain ⟨start, _, hvisit, -⟩ := id hvisited
        have hchild : deeper.node.Distinct :=
          Node.inherited_distinct.of_mem_slots hdistinct hvisit.mem_slots
        exact ih _ (hheight ▸ hdescends.height_lt) hrun hchild hbelow rfl
      · exact Or.inr ⟨_, List.prefix_refl _, hvisited.actsAt_of_none⟩

/-! ### Every rebuilt container is reported -/

theorem Enters.isContainer {start frame : Frame α} (h : walker.Enters start frame)
    (hframe : frame.node.isContainer = true) : start.node.isContainer = true := by
  rcases Relation.ReflTransGen.cases_head h with rfl | ⟨deeper, ⟨hvisit, -, -⟩, -⟩
  · exact hframe
  · exact hvisit.isContainer

/-- What a frame that goes down into a key's slot contributes to the report. -/
theorem Descends.differs {frame deeper : Frame α} {rebuilt : Node} {after : Label} {name : String}
    (hfresh : walker.Fresh) (h : walker.Descends frame deeper)
    (hpath : deeper.path = frame.path ++ [.key name]) (hdeeper : deeper.node.isContainer = true)
    (hrun : walker.rebuildFrame frame = .ok (rebuilt, after)) (hdistinct : frame.node.Distinct)
    (hbefore : frame.node.Before frame.label) :
    ∃ child inner ending, frame.node.child? (.key name) = some child ∧
      walker.rebuildFrame deeper = .ok (inner, ending) ∧ child.same inner = false ∧
      (walker.ActsAt frame deeper.path ∨ deeper.node = child) ∧
      ∀ place, place = deeper.path ∨ place ∈ Node.changesBelow deeper.path child inner →
        place ∈ Node.changesBelow frame.path frame.node rebuilt := by
  obtain ⟨hvisit, hsettle, hbelow⟩ := id h
  rename_i seg child start value below entry
  obtain rfl : seg = .key name := by simpa using hpath
  obtain ⟨outcomes, between, new, hvisits, -, rfl⟩ := rebuildFrame_ok hvisit.isContainer hrun
  obtain ⟨seg, other, inner, ending, hsame, hinner, hzip⟩ := h.rebuildFrame hvisits
  obtain rfl : seg = .key name := by simpa using hsame.symm
  obtain ⟨label, fields, hframe, hchild⟩ := Node.mem_fields_of_mem_slots hvisit.mem_slots
  have hkeys : Table.Distinct fields := (Node.distinct_obj.mp (hframe ▸ hdistinct)).1
  have hget : Table.get? fields name = some child := Table.get?_of_mem hkeys hchild
  have hkept : (name, inner) ∈ Node.keepFields fields outcomes := by
    rw [hframe, Node.slots, List.zip_map_left, List.mem_map] at hzip
    obtain ⟨⟨⟨key, held⟩, outcome⟩, hmem, heq⟩ := hzip
    cases heq
    exact Node.mem_keepFields_of_mem_zip hmem
  have hnew : child.same inner = false := by
    obtain ⟨made, hmade, hle⟩ := hfresh.label_rebuildFrame hdeeper hinner
    have hold : child.Before frame.label :=
      (Node.inherited_before _).of_mem_slots hbefore hvisit.mem_slots
    exact Node.same_eq_false_of_before hold hmade (Nat.le_trans (hfresh.le_of_descends h) hle)
  refine ⟨child, inner, ending, by rw [hframe]; exact hget, hinner, hnew, ?_, ?_⟩
  · by_cases hacts : walker.ActsAt frame (frame.path ++ [.key name])
    · exact Or.inl hacts
    · rw [settle_of_quiet (hvisit.quiet hacts)] at hsettle
      cases hsettle
      exact Or.inr rfl
  · intro place hplace
    rw [hframe, Node.refill, Node.changesBelow, List.mem_append]
    refine Or.inl (Node.mem_changesInFields.mpr ⟨name, inner, hkept, ?_⟩)
    rw [hget]
    exact ⟨hnew, hplace⟩

/-- **A container rebuilt at a path of keys is reported, unless an effect ran on the way there.** -/
theorem Enters.mem_changesBelow {start frame : Frame α} (hfresh : walker.Fresh)
    (h : walker.Enters start frame) :
    ∀ (names : List String) {rebuilt : Node} {after : Label},
      walker.rebuildFrame start = .ok (rebuilt, after) → start.node.Distinct →
      start.node.Before start.label → frame.node.isContainer = true → names ≠ [] →
      frame.path = start.path ++ names.map Seg.key →
      (∀ acted, acted <+: frame.path → acted ≠ frame.path → ¬walker.ActsAt start acted) →
      frame.path ∈ Node.changesBelow start.path start.node rebuilt := by
  induction h using Relation.ReflTransGen.head_induction_on with
  | refl =>
      intro names rebuilt after _ _ _ _ hnames hpath
      exact absurd (List.map_eq_nil_iff.mp (List.self_eq_append_right.mp hpath)) hnames
  | head hfirst hrest ih =>
      rename_i start deeper
      intro names rebuilt after hrun hdistinct hbefore hframe hnames hpath hacts
      obtain ⟨seg, hdeeper⟩ := hfirst.path_eq
      have hpre : deeper.path <+: frame.path := Enters.prefix_path hrest
      obtain ⟨name, others, rfl⟩ := List.exists_cons_of_ne_nil hnames
      obtain rfl : seg = .key name := by
        rw [hdeeper, hpath, List.prefix_append_right_inj] at hpre
        exact (List.cons_prefix_cons.mp hpre).1
      have hcontainer := Enters.isContainer hrest hframe
      obtain ⟨child, inner, ending, hchild, hinner, -, hpassed, hreport⟩ :=
        hfirst.differs hfresh hdeeper hcontainer hrun hdistinct hbefore
      refine hreport _ ?_
      by_cases hlast : deeper.path = frame.path
      · exact Or.inl hlast.symm
      · obtain rfl := hpassed.resolve_left (hacts _ hpre hlast)
        have hothers : frame.path = deeper.path ++ others.map Seg.key := by
          rw [hpath, hdeeper, List.map_cons, List.append_assoc, List.singleton_append]
        have hslot := Node.mem_slots_of_child? hchild
        have hkeys : deeper.node.Distinct := Node.inherited_distinct.of_mem_slots hdistinct hslot
        have hold : deeper.node.Before deeper.label :=
          ((Node.inherited_before _).of_mem_slots hbefore hslot).mono (hfresh.le_of_descends hfirst)
        refine Or.inr (ih others hinner hkeys hold hframe ?_ hothers ?_)
        · rintro rfl
          exact hlast (by rw [hothers, List.map_nil, List.append_nil])
        · intro acted hacted hne hdeep
          exact hacts acted hacted hne (hdeep.of_descends hfirst)

end Walker

/--
**A reduction reports what it came to.**  Every place in the report was led to, slot by
slot from the root, or lies where an effect ran; and every container that was rebuilt
at a path of keys is in the report, unless an effect ran on the way to it.
-/
theorem Registry.changes_of_reduce {registry : Registry} {state next : Node} {action : Action}
    {label after : Label} (hdistinct : state.Distinct) (hbefore : state.Before label)
    (h : (registry.reduce state action).run label = .ok (next, after)) :
    (∀ place ∈ state.changes next, ∃ pass start, registry.Starts state action label pass start ∧
      ((∀ slot, slot ≠ [] → slot <+: place → pass.walker.Reaches start slot) ∨
        ∃ acted, acted <+: place ∧ pass.walker.ActsAt start acted)) ∧
    (∀ pass start, registry.Starts state action label pass start →
      ∀ frame names, pass.walker.Enters start frame → frame.node.isContainer = true →
        names ≠ [] → frame.path = names.map Seg.key →
        (∀ acted, acted <+: frame.path → acted ≠ frame.path →
          ¬pass.walker.ActsAt start acted) →
        frame.path ∈ state.changes next) := by
  rcases reduce_ok h with ⟨hnone, rfl⟩ | ⟨pass, start, hstart, hrun⟩
  · refine ⟨fun place hplace => ?_, fun pass start hstart => absurd hstart (hnone pass start)⟩
    rw [Node.changes, Node.same_refl, if_pos rfl] at hplace
    cases hplace
  · obtain ⟨hroot, hnode, hlabel⟩ := hstart.frame
    subst hnode
    refine ⟨fun place hplace => ⟨pass, start, hstart, ?_⟩, ?_⟩
    · have hbelow : place ∈ Node.changesBelow start.path start.node next := by
        rw [Node.changes] at hplace
        split at hplace
        · cases hplace
        · rwa [hroot]
      rcases Walker.touched_of_mem_changesBelow hrun hdistinct hbelow with hreached | hacted
      · refine Or.inl fun slot hslot hpre => hreached.upTo hpre ?_
        rw [hroot]
        exact List.length_pos_iff.mpr hslot
      · exact Or.inr hacted
    · intro other begin hother frame names henters hframe hnames hpath hacts
      obtain ⟨rfl, rfl⟩ := hstart.unique hother
      have hstate := Walker.Enters.isContainer henters hframe
      obtain ⟨made, hmade, hle⟩ := other.fresh_walker.label_rebuildFrame hstate hrun
      have hnew : begin.node.same next = false :=
        Node.same_eq_false_of_before hbefore hmade (Nat.le_trans hlabel hle)
      rw [Node.changes, hnew, ← hroot]
      exact henters.mem_changesBelow other.fresh_walker names hrun hdistinct (hbefore.mono hlabel)
        hframe hnames (by rw [hroot, List.nil_append, hpath]) hacts

/-- Deleting `a.x` rebuilds the object at `a` and reports it. -/
theorem Registry.changes_of_reduce_delete :
    ∃ next after,
      ((Registry.ofEffects "drop" [⟨[.key "a", .key "x"], some .delete⟩]).reduce
        (.obj 0 [("a", .obj 1 [("x", .null)])]) ⟨"drop", .null⟩).run 2 = .ok (next, after) ∧
      [Seg.key "a"] ∈ (Node.obj 0 [("a", .obj 1 [("x", .null)])]).changes next := by
  have hdistinct : (Node.obj 0 [("a", .obj 1 [("x", .null)])]).Distinct := by
    simp [Node.Distinct, Node.DistinctFields, Table.Distinct, Table.keys]
  have hbefore : (Node.obj 0 [("a", .obj 1 [("x", .null)])]).Before 2 := by
    simp [Node.Before, Node.labels, Node.labelsOfFields]
  have hrun : ((Registry.ofEffects "drop" [⟨[.key "a", .key "x"], some .delete⟩]).reduce
      (.obj 0 [("a", .obj 1 [("x", .null)])]) ⟨"drop", .null⟩).run 2 =
        .ok (.obj 3 [("a", .obj 2 [])], 4) := rfl
  refine ⟨_, _, hrun, (Registry.changes_of_reduce hdistinct hbefore hrun).2 _ _ (.mk rfl rfl)
    ⟨[.key "a"], _, _, _⟩ ["a"]
    (.single (.mk ⟨[], [], [], rfl, rfl⟩ rfl (List.cons_ne_nil _ _))) rfl (by simp) rfl ?_⟩
  rintro acted hacted hne ⟨branch, ⟨frame, seg, child, label, -, -, rfl, -⟩, -⟩
  rcases List.prefix_cons_iff.mp hacted with hnil | ⟨rest, heq, hrest⟩
  · simp at hnil
  · rw [List.prefix_nil.mp hrest] at heq
    exact hne heq

end Reducer
