/-
What a report lists, and in which order.

The report of two trees is written as three loops that carry a path along.  Read off the
names of a container's children it is one loop: of every name that either node has, it
says nothing, or the place alone, or the place and then what changed below it.  The names
come in the order of the new node, those that only the old one has last.  This is
`changesBelow_eq`, and it holds as soon as no key of the new node occurs twice.

Everything else is an induction along a path, one name at a time: which places are listed,
that a place comes before those below it, and that siblings keep the order of the names.
Which places are listed does not depend on which of the two trees is the new one.
-/
import Mathlib.Data.List.Flatten
import Mathlib.Data.List.Nodup
import Reducer.Changes
import Reducer.Proofs.Node

namespace Reducer.Node

/-! ### The children two nodes have between them -/

/-- A report compares the children of two mappings, or of two arrays of one length. -/
def Comparable : Node → Node → Prop
  | obj _ _, obj _ _ => True
  | arr _ items, arr _ others => items.length = others.length
  | _, _ => False

/-- The names of a node's children, in order. -/
def names : Node → List Seg
  | obj _ fields => (Table.keys fields).map .key
  | arr _ items => (List.range items.length).map .index
  | _ => []

/-- The names of the new node's children, and after them those that only the old node has. -/
def allNames (old new : Node) : List Seg :=
  new.names ++ old.names.filter fun seg => (new.child? seg).isNone

/-- What is at a name has changed: another node is there, or only one side has any. -/
def Changed : Option Node → Option Node → Prop
  | some old, some new => old.same new = false
  | none, none => False
  | _, _ => True

/-- What a report says of one name. -/
def changesAt (path : Path) (seg : Seg) : Option Node → Option Node → List Path
  | some old, some new =>
      if old.same new then [] else (path ++ [seg]) :: changesBelow (path ++ [seg]) old new
  | none, none => []
  | _, _ => [path ++ [seg]]

theorem mem_names {node : Node} {seg : Seg} : seg ∈ node.names ↔ (node.child? seg).isSome := by
  cases node with
  | obj label fields =>
      cases seg with
      | index position => simp [names, child?]
      | key name =>
          have hkeys : name ∈ Table.keys fields ↔ (Table.get? fields name).isSome := by
            rw [Option.isSome_iff_ne_none, ne_eq, Table.get?_eq_none_iff, not_not]
          simpa [names, child?] using hkeys
  | arr label items =>
      cases seg with
      | index position => simp [names, child?]
      | key name => simp [names, child?]
  | _ => simp [names, child?]

theorem nodup_names {node : Node} (h : node.Distinct) : node.names.Nodup := by
  cases node with
  | obj label fields =>
      have hkeys : (Table.keys fields).Nodup := (distinct_obj.mp h).1
      exact hkeys.map fun a b hab => Seg.key.inj hab
  | arr label items => exact List.nodup_range.map fun a b hab => Seg.index.inj hab
  | _ => exact List.nodup_nil

theorem mem_allNames {old new : Node} {seg : Seg} :
    seg ∈ allNames old new ↔ (old.child? seg).isSome ∨ (new.child? seg).isSome := by
  simp only [allNames, List.mem_append, List.mem_filter, mem_names]
  cases hnew : new.child? seg <;> simp

theorem nodup_allNames {old new : Node} (hold : old.Distinct) (hnew : new.Distinct) :
    (allNames old new).Nodup := by
  refine List.nodup_append.mpr ⟨nodup_names hnew, (nodup_names hold).filter _, ?_⟩
  intro a ha b hb hab
  have hnone : new.child? b = none := by simpa using (List.mem_filter.mp hb).2
  have hsome := mem_names.mp ha
  rw [hab, hnone] at hsome
  cases hsome

/-! ### One loop over the names -/

theorem changesInFields_eq (path : Path) (before after : List (String × Node)) :
    changesInFields path before after =
      after.flatMap fun field =>
        changesAt path (.key field.1) (Table.get? before field.1) (some field.2) := by
  induction after with
  | nil => rfl
  | cons field rest ih =>
      obtain ⟨name, value⟩ := field
      rw [changesInFields, List.flatMap_cons, ih]
      cases Table.get? before name <;> rfl

theorem changesInItems_eq (path : Path) (position : Nat) {before after : List Node}
    (h : before.length = after.length) :
    changesInItems path position before after =
      (List.range after.length).flatMap fun index =>
        changesAt path (.index (position + index)) before[index]? after[index]? := by
  induction after generalizing position before with
  | nil => cases before <;> rfl
  | cons value rest ih =>
      cases before with
      | nil => simp at h
      | cons old before =>
          have hrest : before.length = rest.length := by simpa using h
          rw [changesInItems, ih (position + 1) hrest, List.length_cons, List.range_succ_eq_map,
            List.flatMap_cons, List.flatMap_map]
          simp [changesAt, Nat.add_assoc, Nat.add_comm 1]

theorem changesBelow_of_not_comparable {path : Path} {old new : Node} (h : ¬Comparable old new) :
    changesBelow path old new = [] := by
  cases old with
  | obj label before =>
      cases new with
      | obj other after => exact absurd trivial h
      | _ => rfl
  | arr label before =>
      cases new with
      | arr other after =>
          have hlength : (before.length == after.length) = false := by simpa [Comparable] using h
          rw [changesBelow, hlength]
          rfl
      | _ => rfl
  | _ => cases new <;> rfl

/-- **A report is one loop over the names of the children.** -/
theorem changesBelow_eq {path : Path} {old new : Node} (h : Comparable old new)
    (hnew : new.Distinct) :
    changesBelow path old new =
      (allNames old new).flatMap fun seg =>
        changesAt path seg (old.child? seg) (new.child? seg) := by
  cases old with
  | obj label before =>
      cases new with
      | obj other after =>
          have hkeys : Table.Distinct after := (distinct_obj.mp hnew).1
          rw [changesBelow, changesInFields_eq, allNames, List.flatMap_append]
          congr 1
          · rw [names, Table.keys, List.map_map, List.flatMap_map]
            refine List.flatMap_congr fun field hfield => ?_
            have hget : Table.get? after field.1 = some field.2 := Table.get?_of_mem hkeys hfield
            simp [child?, hget]
          · -- A name that is gone contributes its place and nothing else.
            have hgone : ∀ name ∈ Table.keys before, Table.has after name = false →
                changesAt path (.key name) (Table.get? before name) (Table.get? after name) =
                  [path ++ [.key name]] := by
              intro name hname hafter
              obtain ⟨value, hvalue⟩ := Table.exists_of_mem_keys hname
              have hnone : Table.get? after name = none := by simpa [Table.has] using hafter
              rw [hvalue, hnone]
              rfl
            rw [names, List.filter_map, List.flatMap_map, List.map_eq_flatMap]
            have hfilter : (fun seg => ((obj other after).child? seg).isNone) ∘ Seg.key =
                fun name => !Table.has after name := by
              funext name
              simp [child?, Table.has]
            rw [hfilter]
            refine List.flatMap_congr fun name hname => ?_
            obtain ⟨hbefore, hafter⟩ := List.mem_filter.mp hname
            exact (hgone name hbefore (by simpa using hafter)).symm
      | _ => cases h
  | arr label before =>
      cases new with
      | arr other after =>
          have hlength : before.length = after.length := h
          have hnames : allNames (arr label before) (arr other after) =
              (List.range after.length).map .index := by
            have hnone : (names (arr label before)).filter
                (fun seg => ((arr other after).child? seg).isNone) = [] := by
              simp [names, child?, hlength]
            rw [allNames, hnone, List.append_nil, names]
          rw [changesBelow, hnames, if_pos (by simpa using hlength),
            changesInItems_eq path 0 hlength, List.flatMap_map]
          simp [child?]
      | _ => cases h
  | _ => cases h

/-! ### The path is only carried along -/

/-- Induction over two trees at once: a pair has the property once all pairs of children have it. -/
@[elab_as_elim]
theorem pairInduction {motive : Node → Node → Prop}
    (step : ∀ old new, (∀ seg before after, old.child? seg = some before →
      new.child? seg = some after → motive before after) → motive old new)
    (old new : Node) : motive old new := by
  induction new using childInduction generalizing old with
  | step new ih =>
      refine step old new fun seg before after _ hafter => ?_
      exact ih after (mem_children_of_child? hafter) before

theorem changesBelow_append (front : Path) (old new : Node) (hnew : new.Distinct) (path : Path) :
    changesBelow (front ++ path) old new = (changesBelow path old new).map (front ++ ·) := by
  induction old, new using pairInduction generalizing path with
  | step old new ih =>
      by_cases h : Comparable old new
      · rw [changesBelow_eq h hnew, changesBelow_eq h hnew, List.map_flatMap]
        refine List.flatMap_congr fun seg _ => ?_
        cases hbefore : old.child? seg with
        | none => cases new.child? seg <;> simp [changesAt]
        | some before =>
            cases hafter : new.child? seg with
            | none => simp [changesAt]
            | some after =>
                have hdistinct := inherited_distinct new hnew after (mem_children_of_child? hafter)
                have hbelow := ih seg before after hbefore hafter hdistinct (path ++ [seg])
                by_cases hsame : before.same after = true
                · simp [changesAt, hsame]
                · simp [changesAt, hsame, ← hbelow]
      · rw [changesBelow_of_not_comparable h, changesBelow_of_not_comparable h, List.map_nil]

theorem changesAt_some {seg : Seg} {before after : Node} (hafter : after.Distinct) :
    changesAt [] seg (some before) (some after) =
      if before.same after then [] else [seg] :: (changesBelow [] before after).map (seg :: ·) := by
  have hbelow := changesBelow_append [seg] before after hafter []
  rw [List.append_nil] at hbelow
  rw [changesAt, List.nil_append, hbelow]
  rfl

/-- What is listed at a name is the name itself, or what is listed of the two children there. -/
theorem mem_changesAt {seg : Seg} {place : Path} {old new : Option Node}
    (hnew : DistinctSlot new) :
    place ∈ changesAt [] seg old new ↔
      ∃ rest, place = seg :: rest ∧ Changed old new ∧
        (rest = [] ∨ ∃ before after, old = some before ∧ new = some after ∧
          rest ∈ changesBelow [] before after) := by
  cases old with
  | none => cases new <;> simp [changesAt, Changed]
  | some before =>
      cases new with
      | none => simp [changesAt, Changed]
      | some after =>
          rw [changesAt_some (hnew after rfl)]
          by_cases hsame : before.same after = true
          · simp [Changed, hsame]
          · rw [if_neg hsame, List.mem_cons, List.mem_map]
            have hchanged : Changed (some before) (some after) := by simpa [Changed] using hsame
            constructor
            · rintro (rfl | ⟨rest, hrest, rfl⟩)
              · exact ⟨[], rfl, hchanged, Or.inl rfl⟩
              · exact ⟨rest, rfl, hchanged, Or.inr ⟨before, after, rfl, rfl, hrest⟩⟩
            · rintro ⟨rest, rfl, -, rfl | ⟨_, _, hbefore, hafter, hrest⟩⟩
              · exact Or.inl rfl
              · cases hbefore; cases hafter
                exact Or.inr ⟨rest, hrest, rfl⟩

/-! ### Which places are listed -/

theorem Distinct.child? {node : Node} (h : node.Distinct) (seg : Seg) :
    DistinctSlot (node.child? seg) :=
  fun child hchild => inherited_distinct node h child (mem_children_of_child? hchild)

theorem mem_allNames_of_changed {old new : Node} {seg : Seg}
    (h : Changed (old.child? seg) (new.child? seg)) : seg ∈ allNames old new := by
  rw [mem_allNames]
  cases hold : old.child? seg with
  | some before => exact Or.inl rfl
  | none =>
      cases hnew : new.child? seg with
      | some after => exact Or.inr rfl
      | none => rw [hold, hnew] at h; exact h.elim

theorem mem_changesBelow {old new : Node} (hnew : new.Distinct) {place : Path} :
    place ∈ changesBelow [] old new ↔
      ∃ seg rest, place = seg :: rest ∧ Comparable old new ∧
        Changed (old.child? seg) (new.child? seg) ∧
        (rest = [] ∨ ∃ before after, old.child? seg = some before ∧ new.child? seg = some after ∧
          rest ∈ changesBelow [] before after) := by
  by_cases h : Comparable old new
  · rw [changesBelow_eq h hnew, List.mem_flatMap]
    constructor
    · rintro ⟨seg, -, hplace⟩
      obtain ⟨rest, heq, hchanged, hrest⟩ := (mem_changesAt (hnew.child? seg)).mp hplace
      exact ⟨seg, rest, heq, h, hchanged, hrest⟩
    · rintro ⟨seg, rest, heq, -, hchanged, hrest⟩
      refine ⟨seg, mem_allNames_of_changed hchanged, ?_⟩
      exact (mem_changesAt (hnew.child? seg)).mpr ⟨rest, heq, hchanged, hrest⟩
  · simp [changesBelow_of_not_comparable h, h]

/-- A report goes into two nodes that are not the same and can be compared. -/
def Entered (old new : Node) : Prop :=
  old.same new = false ∧ Comparable old new

theorem mem_changes {old new : Node} (hnew : new.Distinct) {place : Path} :
    place ∈ old.changes new ↔
      ∃ seg rest, place = seg :: rest ∧ Entered old new ∧
        Changed (old.child? seg) (new.child? seg) ∧
        (rest = [] ∨ ∃ before after, old.child? seg = some before ∧ new.child? seg = some after ∧
          rest ∈ before.changes after) := by
  unfold changes
  by_cases hsame : old.same new = true
  · simp [hsame, Entered]
  · have hnot : old.same new = false := by simpa using hsame
    rw [if_neg hsame, mem_changesBelow hnew]
    constructor
    · rintro ⟨seg, rest, heq, hcomparable, hchanged, hrest⟩
      refine ⟨seg, rest, heq, ⟨hnot, hcomparable⟩, hchanged, ?_⟩
      rcases hrest with hnil | ⟨before, after, hbefore, hafter, hrest⟩
      · exact Or.inl hnil
      · rw [hbefore, hafter] at hchanged
        have hdiffer : ¬before.same after = true := by simpa [Changed] using hchanged
        exact Or.inr ⟨before, after, hbefore, hafter, by rwa [if_neg hdiffer]⟩
    · rintro ⟨seg, rest, heq, ⟨-, hcomparable⟩, hchanged, hrest⟩
      refine ⟨seg, rest, heq, hcomparable, hchanged, ?_⟩
      rcases hrest with hnil | ⟨before, after, hbefore, hafter, hrest⟩
      · exact Or.inl hnil
      · refine Or.inr ⟨before, after, hbefore, hafter, ?_⟩
        by_cases hdiffer : before.same after = true
        · rw [if_pos hdiffer] at hrest
          cases hrest
        · rwa [if_neg hdiffer] at hrest

/-- **A place is listed when the report goes into everything above it, and its child changed.** -/
theorem concat_mem_changes {path : Path} {seg : Seg} :
    ∀ {old new : Node}, new.Distinct →
      (path ++ [seg] ∈ old.changes new ↔
        (∀ front, front <+: path → ∃ before after, old.at? front = some before ∧
          new.at? front = some after ∧ Entered before after) ∧
        ∃ before after, old.at? path = some before ∧ new.at? path = some after ∧
          Changed (before.child? seg) (after.child? seg)) := by
  induction path with
  | nil =>
      intro old new hnew
      rw [mem_changes hnew]
      constructor
      · rintro ⟨seg, rest, heq, hentered, hchanged, -⟩
        cases heq
        refine ⟨fun front hfront => ?_, old, new, rfl, rfl, hchanged⟩
        rw [List.prefix_nil.mp hfront]
        exact ⟨old, new, rfl, rfl, hentered⟩
      · rintro ⟨hentered, before, after, hbefore, hafter, hchanged⟩
        obtain ⟨one, two, hone, htwo, hpair⟩ := hentered [] (List.prefix_refl [])
        cases hbefore; cases hafter; cases hone; cases htwo
        exact ⟨seg, [], rfl, hpair, hchanged, Or.inl rfl⟩
  | cons first path ih =>
      intro old new hnew
      rw [mem_changes hnew]
      constructor
      · rintro ⟨_, _, heq, hentered, hchanged, hnil | ⟨before, after, hbefore, hafter, hrest⟩⟩
        · rw [hnil] at heq
          simp at heq
        · cases heq
          have hdistinct : after.Distinct := hnew.child? first after hafter
          obtain ⟨hfronts, one, two, hone, htwo, hlast⟩ := (ih hdistinct).mp hrest
          refine ⟨fun front hfront => ?_, one, two, ?_, ?_, hlast⟩
          · rcases List.prefix_cons_iff.mp hfront with rfl | ⟨shorter, rfl, hshorter⟩
            · exact ⟨old, new, rfl, rfl, hentered⟩
            · simpa [at?, hbefore, hafter] using hfronts shorter hshorter
          · simpa [at?, hbefore] using hone
          · simpa [at?, hafter] using htwo
      · rintro ⟨hfronts, one, two, hone, htwo, hlast⟩
        rw [at?, Option.bind_eq_some_iff] at hone htwo
        obtain ⟨before, hbefore, hone⟩ := hone
        obtain ⟨after, hafter, htwo⟩ := htwo
        obtain ⟨a, b, ha, hb, hentered⟩ := hfronts [] List.nil_prefix
        cases ha; cases hb
        have hdistinct : after.Distinct := hnew.child? first after hafter
        have hbelow : ∀ front, front <+: path → ∃ one two, before.at? front = some one ∧
            after.at? front = some two ∧ Entered one two := by
          intro front hfront
          have hhere := hfronts (first :: front) (List.cons_prefix_cons.mpr ⟨rfl, hfront⟩)
          simpa [at?, hbefore, hafter] using hhere
        obtain ⟨a, b, ha, hb, hdiffer, -⟩ := hbelow [] List.nil_prefix
        cases ha; cases hb
        refine ⟨first, path ++ [seg], rfl, hentered, ?_,
          Or.inr ⟨before, after, hbefore, hafter, ?_⟩⟩
        · rw [hbefore, hafter]
          exact hdiffer
        · exact (ih hdistinct).mpr ⟨hbelow, one, two, hone, htwo, hlast⟩

theorem nil_not_mem_changes {old new : Node} (hnew : new.Distinct) : [] ∉ old.changes new := by
  rw [mem_changes hnew]
  rintro ⟨seg, rest, heq, -⟩
  cases heq

/-! ### The two trees may change sides -/

theorem same_comm (node other : Node) : node.same other = other.same node := by
  cases node with
  | num value =>
      cases other with
      | num made => exact Number.eqv_comm value made
      | _ => rfl
  | _ => cases other <;> simp [same, Bool.beq_comm]

theorem Comparable.kind {old new : Node} (h : Comparable old new) :
    old.kind = new.kind ∧ new.isContainer = true := by
  cases old <;> cases new <;> first | exact ⟨rfl, rfl⟩ | exact h.elim

theorem Comparable.symm {node other : Node} (h : Comparable node other) :
    Comparable other node := by
  cases node <;> cases other <;> first | exact h | exact Eq.symm h

theorem Changed.symm {node other : Option Node} (h : Changed node other) : Changed other node := by
  cases node with
  | none => cases other <;> exact h
  | some node =>
      cases other with
      | none => exact h
      | some other => exact (same_comm other node).trans h

theorem mem_changes_symm {old new : Node} (hold : old.Distinct) (hnew : new.Distinct) {place : Path}
    (h : place ∈ old.changes new) : place ∈ new.changes old := by
  rcases List.eq_nil_or_concat' place with rfl | ⟨path, seg, rfl⟩
  · exact absurd h (nil_not_mem_changes hnew)
  · rw [concat_mem_changes hnew] at h
    rw [concat_mem_changes hold]
    obtain ⟨hfronts, before, after, hbefore, hafter, hchanged⟩ := h
    refine ⟨fun front hfront => ?_, after, before, hafter, hbefore, hchanged.symm⟩
    obtain ⟨one, two, hone, htwo, hsame, hcomparable⟩ := hfronts front hfront
    exact ⟨two, one, htwo, hone, (same_comm two one).trans hsame, hcomparable.symm⟩

/-! ### The order of the list -/

/-- **No place is listed after one that lies on or below it.** -/
theorem pairwise_changesBelow (old new : Node) (hold : old.Distinct) (hnew : new.Distinct) :
    (changesBelow [] old new).Pairwise fun place later => ¬later <+: place := by
  induction old, new using pairInduction with
  | step old new ih =>
      by_cases h : Comparable old new
      · rw [changesBelow_eq h hnew, List.pairwise_flatMap]
        constructor
        · intro seg _
          cases hbefore : old.child? seg with
          | none => cases new.child? seg <;> simp [changesAt]
          | some before =>
              cases hafter : new.child? seg with
              | none => simp [changesAt]
              | some after =>
                  have hdistinct := hnew.child? seg after hafter
                  rw [changesAt_some hdistinct]
                  by_cases hsame : before.same after = true
                  · simp [hsame]
                  · have hbelow := ih seg before after hbefore hafter
                      (hold.child? seg before hbefore) hdistinct
                    rw [if_neg hsame, List.pairwise_cons, List.pairwise_map]
                    refine ⟨fun later hlater hpre => ?_, hbelow.imp fun hnot hpre => ?_⟩
                    · obtain ⟨rest, hrest, rfl⟩ := List.mem_map.mp hlater
                      have hnil : rest = [] := by simpa using hpre
                      rw [hnil] at hrest
                      obtain ⟨_, _, heq, -⟩ := (mem_changesBelow hdistinct).mp hrest
                      cases heq
                    · exact hnot (List.cons_prefix_cons.mp hpre).2
        · -- Places listed at two names begin with different segments.
          refine (nodup_allNames hold hnew).imp
            fun {one two} hne place hplace later hlater hpre => ?_
          obtain ⟨rest, rfl, -⟩ := (mem_changesAt (hnew.child? one)).mp hplace
          obtain ⟨others, rfl, -⟩ := (mem_changesAt (hnew.child? two)).mp hlater
          exact hne (List.cons_prefix_cons.mp hpre).1.symm
      · simp [changesBelow_of_not_comparable h]

theorem pairwise_changes {old new : Node} (hold : old.Distinct) (hnew : new.Distinct) :
    (old.changes new).Pairwise fun place later => ¬later <+: place := by
  unfold changes
  split
  · exact List.Pairwise.nil
  · exact pairwise_changesBelow old new hold hnew

/-- Of a place that is listed, everything on the way there is listed too. -/
theorem mem_changes_of_prefix {old new : Node} (hnew : new.Distinct) {front place : Path}
    (hplace : place ∈ old.changes new) (hpre : front <+: place) (hfront : front ≠ []) :
    front ∈ old.changes new := by
  rcases List.eq_nil_or_concat' place with rfl | ⟨path, seg, rfl⟩
  · exact absurd hplace (nil_not_mem_changes hnew)
  rcases List.prefix_concat_iff.mp hpre with rfl | hshorter
  · exact hplace
  rcases List.eq_nil_or_concat' front with rfl | ⟨before, last, rfl⟩
  · exact absurd rfl hfront
  rw [concat_mem_changes hnew] at hplace ⊢
  obtain ⟨hfronts, -⟩ := hplace
  refine ⟨fun other hother => hfronts other ?_, ?_⟩
  · exact hother.trans ((List.prefix_append before [last]).trans hshorter)
  · obtain ⟨one, two, hone, htwo, hdiffer, -⟩ := hfronts _ hshorter
    rw [at?_append, Option.bind_eq_some_iff] at hone htwo
    obtain ⟨above, habove, hone⟩ := hone
    obtain ⟨beside, hbeside, htwo⟩ := htwo
    refine ⟨above, beside, habove, hbeside, ?_⟩
    rw [at?, Option.bind_eq_some_iff] at hone htwo
    obtain ⟨_, hchild, hone⟩ := hone
    obtain ⟨_, hother, htwo⟩ := htwo
    cases hone; cases htwo
    rw [hchild, hother]
    exact hdiffer

/-- Everything on the way to a place is listed before it. -/
theorem sublist_of_prefix {old new : Node} (hold : old.Distinct) (hnew : new.Distinct)
    {front place : Path} (hplace : place ∈ old.changes new) (hfront : front ≠ [])
    (hpre : front <+: place) (hne : front ≠ place) :
    List.Sublist [front, place] (old.changes new) := by
  have hmem := mem_changes_of_prefix hnew hplace hpre hfront
  have hpairwise := pairwise_changes hold hnew
  obtain ⟨earlier, later, hsplit⟩ := List.append_of_mem hplace
  rw [hsplit] at hmem hpairwise ⊢
  rcases List.mem_append.mp hmem with hearlier | hlater
  · have hlast : List.Sublist [place] (place :: later) := (List.nil_sublist later).cons_cons place
    exact (List.singleton_sublist.mpr hearlier).append hlast
  · rcases List.mem_cons.mp hlater with heq | hlater
    · exact absurd heq hne
    · have hafter := (List.pairwise_cons.mp (List.pairwise_append.mp hpairwise).2.1).1 front hlater
      exact absurd hpre hafter

/-- The names that changed are listed in their order, each with what is below it. -/
theorem sublist_changesBelow {old new : Node} (h : Comparable old new) (hnew : new.Distinct)
    {siblings : List Seg} (horder : siblings.Sublist (allNames old new))
    (hchanged : ∀ seg ∈ siblings, Changed (old.child? seg) (new.child? seg)) :
    (siblings.map fun seg => [seg]).Sublist (changesBelow [] old new) := by
  rw [changesBelow_eq h hnew, List.map_eq_flatMap]
  refine List.Sublist.trans ?_ (horder.flatMap _)
  refine List.Sublist.flatMap_right siblings fun seg hseg => ?_
  have hlisted : [seg] ∈ changesAt [] seg (old.child? seg) (new.child? seg) :=
    (mem_changesAt (hnew.child? seg)).mpr ⟨[], rfl, hchanged seg hseg, Or.inl rfl⟩
  simpa using hlisted

theorem sublist_changes_of_mem {path : Path} {siblings : List Seg} {chosen : Seg}
    (hchosen : chosen ∈ siblings) :
    ∀ {old new before after : Node}, new.Distinct → old.at? path = some before →
      new.at? path = some after → siblings.Sublist (allNames before after) →
      (∀ seg ∈ siblings, path ++ [seg] ∈ old.changes new) →
      (siblings.map fun seg => path ++ [seg]).Sublist (old.changes new) := by
  induction path with
  | nil =>
      intro old new before after hnew hbefore hafter horder hlisted
      cases hbefore; cases hafter
      have hchanged : ∀ seg ∈ siblings,
          Entered old new ∧ Changed (old.child? seg) (new.child? seg) := by
        intro seg hseg
        obtain ⟨_, _, heq, hentered, hchanged, -⟩ := (mem_changes hnew).mp (hlisted seg hseg)
        cases heq
        exact ⟨hentered, hchanged⟩
      obtain ⟨⟨hsame, hcomparable⟩, -⟩ := hchanged chosen hchosen
      rw [changes, hsame, if_neg Bool.false_ne_true]
      exact sublist_changesBelow hcomparable hnew horder fun seg hseg => (hchanged seg hseg).2
  | cons first path ih =>
      intro old new before after hnew hbefore hafter horder hlisted
      rw [at?, Option.bind_eq_some_iff] at hbefore hafter
      obtain ⟨one, hone, hbefore⟩ := hbefore
      obtain ⟨two, htwo, hafter⟩ := hafter
      have hinner : ∀ seg ∈ siblings, Entered old new ∧ Changed (some one) (some two) ∧
          path ++ [seg] ∈ one.changes two := by
        intro seg hseg
        obtain ⟨_, _, heq, hentered, hchanged, hrest⟩ := (mem_changes hnew).mp (hlisted seg hseg)
        cases heq
        rw [hone, htwo] at hchanged
        refine ⟨hentered, hchanged, ?_⟩
        rcases hrest with hnil | ⟨left, right, hleft, hright, hrest⟩
        · simp at hnil
        · rw [hone] at hleft
          rw [htwo] at hright
          cases hleft; cases hright
          exact hrest
      obtain ⟨⟨hsame, hcomparable⟩, hdiffer, -⟩ := hinner chosen hchosen
      have hdistinct : two.Distinct := hnew.child? first two htwo
      have hbelow := ih hdistinct hbefore hafter horder fun seg hseg => (hinner seg hseg).2.2
      have hfirst : ((siblings.map fun seg => path ++ [seg]).map (first :: ·)).Sublist
          (changesAt [] first (some one) (some two)) := by
        have hdiffer : one.same two = false := hdiffer
        rw [changes, hdiffer, if_neg Bool.false_ne_true] at hbelow
        rw [changesAt_some hdistinct, hdiffer, if_neg Bool.false_ne_true]
        exact (hbelow.map _).cons _
      have hmem : changesAt [] first (some one) (some two) ∈
          (allNames old new).map fun seg => changesAt [] seg (old.child? seg) (new.child? seg) := by
        refine List.mem_map.mpr ⟨first, mem_allNames.mpr (Or.inl ?_), ?_⟩
        · rw [hone]; rfl
        · rw [hone, htwo]
      rw [changes, hsame, if_neg Bool.false_ne_true, changesBelow_eq hcomparable hnew]
      rw [List.map_map] at hfirst
      exact hfirst.trans (List.sublist_flatten_of_mem hmem)

/-- **Siblings are listed in the order of the names.** -/
theorem sublist_changes {old new before after : Node} {path : Path} {siblings : List Seg}
    (hnew : new.Distinct) (hbefore : old.at? path = some before)
    (hafter : new.at? path = some after) (horder : siblings.Sublist (allNames before after))
    (hlisted : ∀ seg ∈ siblings, path ++ [seg] ∈ old.changes new) :
    (siblings.map fun seg => path ++ [seg]).Sublist (old.changes new) := by
  by_cases hempty : siblings = []
  · rw [hempty]
    exact List.nil_sublist _
  · obtain ⟨chosen, hchosen⟩ := List.exists_mem_of_ne_nil siblings hempty
    exact sublist_changes_of_mem hchosen hnew hbefore hafter horder hlisted

/-! ### The whole of it -/

theorem comparable_iff {old new : Node} :
    Comparable old new ↔ (old.kind = .object ∧ new.kind = .object) ∨
      (old.kind = .array ∧ new.kind = .array ∧ old.size = new.size) := by
  cases old <;> cases new <;> simp [Comparable, kind, size]

/-- Only a mapping can have a child under a name the other node has none under. -/
theorem changed_child?_iff {old new : Node} (h : Comparable old new) {seg : Seg} :
    Changed (old.child? seg) (new.child? seg) ↔
      (∃ before after, old.child? seg = some before ∧ new.child? seg = some after ∧
        before.same after = false) ∨
      (old.kind = .object ∧ new.kind = .object ∧
        (old.child? seg).isSome ≠ (new.child? seg).isSome) := by
  have hkinds : old.kind = .object ∧ new.kind = .object ∨
      ((old.child? seg).isSome = (new.child? seg).isSome) := by
    cases old with
    | obj label before =>
        cases new with
        | obj other after => exact Or.inl ⟨rfl, rfl⟩
        | _ => cases h
    | arr label before =>
        cases new with
        | arr other after =>
            have hlength : before.length = after.length := h
            refine Or.inr ?_
            cases seg with
            | key name => rfl
            | index position =>
                rw [Bool.eq_iff_iff]
                simp [child?, hlength]
        | _ => cases h
    | _ => cases h
  cases hold : old.child? seg with
  | none =>
      cases hnew : new.child? seg with
      | none => simp [Changed]
      | some after =>
          rw [hold, hnew] at hkinds
          simpa [Changed] using hkinds
  | some before =>
      cases hnew : new.child? seg with
      | none =>
          rw [hold, hnew] at hkinds
          simpa [Changed] using hkinds
      | some after => simp [Changed]

/--
**What a report lists.**  A place is listed when the report goes into every node above it,
which takes two nodes that are not the same and two mappings or two arrays of one length,
and when its child is another node than before or is there on one side of two mappings
only.  Each place is listed once, after everything on the way to it; siblings keep the
order of the new node, and those that are gone follow in the order of the old one; the
root is not listed; and the trees may change sides.
-/
theorem changes_exact {old new : Node} (hold : old.Distinct) (hnew : new.Distinct) :
    (∀ path seg, path ++ [seg] ∈ old.changes new ↔
      (∀ front, front <+: path → ∃ before after, old.at? front = some before ∧
        new.at? front = some after ∧ before.same after = false ∧
        (before.kind = .object ∧ after.kind = .object ∨
          before.kind = .array ∧ after.kind = .array ∧ before.size = after.size)) ∧
      ∃ before after, old.at? path = some before ∧ new.at? path = some after ∧
        ((∃ one two, before.child? seg = some one ∧ after.child? seg = some two ∧
            one.same two = false) ∨
          (before.kind = .object ∧ after.kind = .object ∧
            (before.child? seg).isSome ≠ (after.child? seg).isSome))) ∧
    (old.changes new).Nodup ∧
    (∀ place ∈ old.changes new, ∀ front, front ≠ [] → front <+: place → front ≠ place →
      List.Sublist [front, place] (old.changes new)) ∧
    (∀ path before after siblings, old.at? path = some before → new.at? path = some after →
      List.Sublist siblings (allNames before after) →
      (∀ seg ∈ siblings, path ++ [seg] ∈ old.changes new) →
      (siblings.map fun seg => path ++ [seg]).Sublist (old.changes new)) ∧
    [] ∉ old.changes new ∧
    ∀ place, place ∈ new.changes old ↔ place ∈ old.changes new := by
  refine ⟨fun path seg => ?_, ?_, ?_, ?_, nil_not_mem_changes hnew, fun place => ?_⟩
  · rw [concat_mem_changes hnew]
    simp only [Entered, comparable_iff]
    refine and_congr_right fun hfronts => ?_
    obtain ⟨one, two, hone, htwo, -, hcomparable⟩ := hfronts path (List.prefix_refl path)
    constructor
    · rintro ⟨before, after, hbefore, hafter, hchanged⟩
      rw [hone] at hbefore
      rw [htwo] at hafter
      cases hbefore; cases hafter
      have hcomparable := comparable_iff.mpr hcomparable
      exact ⟨one, two, hone, htwo, (changed_child?_iff hcomparable).mp hchanged⟩
    · rintro ⟨before, after, hbefore, hafter, hchanged⟩
      rw [hone] at hbefore
      rw [htwo] at hafter
      cases hbefore; cases hafter
      have hcomparable := comparable_iff.mpr hcomparable
      exact ⟨one, two, hone, htwo, (changed_child?_iff hcomparable).mpr hchanged⟩
  · refine (pairwise_changes hold hnew).imp fun hnot heq => hnot ?_
    exact heq ▸ List.prefix_refl _
  · intro place hplace front hfront hpre hne
    exact sublist_of_prefix hold hnew hplace hfront hpre hne
  · intro path before after siblings hbefore hafter horder hlisted
    exact sublist_changes hnew hbefore hafter horder hlisted
  · exact ⟨mem_changes_symm hnew hold, mem_changes_symm hold hnew⟩

/-- A key that is gone is listed after one that is new. -/
theorem changes_exact_object :
    ([[Seg.key "added"], [Seg.key "gone"]] : List Path).Sublist
      ((Node.obj 0 [("kept", .null), ("gone", .null)]).changes
        (.obj 1 [("kept", .null), ("added", .arr 2 [])])) := by
  have hold : (Node.obj 0 [("kept", .null), ("gone", .null)]).Distinct := by
    simp [Distinct, DistinctFields, Table.Distinct, Table.keys]
  have hnew : (Node.obj 1 [("kept", .null), ("added", .arr 2 [])]).Distinct := by
    simp [Distinct, DistinctFields, DistinctItems, Table.Distinct, Table.keys]
  refine (changes_exact hold hnew).2.2.2.1 [] _ _ [.key "added", .key "gone"] rfl rfl ?_ ?_
  · decide
  · decide

end Reducer.Node
