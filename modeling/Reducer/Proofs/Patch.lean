/-
A new tree from the old one and a report.

Take the places of a report that no other place of it lies below, go through them in
order, and store at each what the new tree has there: the old tree turns into the new one.
Nothing else need be sent.  Above such a place the containers are patched and not
replaced, so they keep the children the report says nothing about, and those are the
children of the new tree.

The argument is one container at a time.  The places of a report that begin with one name
change the child under that name and no other child, `patch_child`; going through all
names, one after the other, leaves a container whose children are equal to the new ones,
`patch_names`.  Between the two stands an induction over both trees.
-/
import Reducer.Proofs.Equality

namespace Reducer

/-- The places that no other place of the list lies below. -/
def finest (places : List Path) : List Path :=
  places.filter fun place => decide (∀ other ∈ places, place <+: other → other = place)

namespace Node

/-! ### Storing at one name -/

/-- A container with another child under a name, or with none; an item cannot be taken away. -/
def putChild? : Node → Seg → Option Node → Option Node
  | obj label fields, .key name, outcome => some (obj label (Table.put fields name outcome))
  | arr label items, .index position, some value =>
      if position < items.length then some (arr label (items.set position value)) else none
  | _, _, _ => none

/-- What is left to store into is a container that has the name, or an object. -/
theorem exists_putChild? {node : Node} {seg : Seg} (value : Node)
    (h : (node.child? seg).isSome) : ∃ made, node.putChild? seg (some value) = some made := by
  cases node with
  | arr label items =>
      cases seg with
      | key name => cases h
      | index position =>
          have hlt : position < items.length := by simpa [child?] using h
          exact ⟨_, if_pos hlt⟩
  | obj label fields =>
      cases seg with
      | key name => exact ⟨_, rfl⟩
      | index position => cases h
  | _ => cases h

theorem putChild?_inv {node made : Node} {seg : Seg} {outcome : Option Node}
    (h : node.putChild? seg outcome = some made) :
    (∃ label fields name, node = obj label fields ∧ seg = .key name ∧
      made = obj label (Table.put fields name outcome)) ∨
    ∃ label items position value, node = arr label items ∧ seg = .index position ∧
      position < items.length ∧ outcome = some value ∧
      made = arr label (items.set position value) := by
  cases node with
  | obj label fields =>
      cases seg with
      | key name => cases h; exact Or.inl ⟨label, fields, name, rfl, rfl, rfl⟩
      | index position => cases h
  | arr label items =>
      cases seg with
      | key name => cases h
      | index position =>
          cases outcome with
          | none => cases h
          | some value =>
              simp only [putChild?, Option.ite_none_right_eq_some, Option.some.injEq] at h
              obtain ⟨hlt, rfl⟩ := h
              exact Or.inr ⟨label, items, position, value, rfl, rfl, hlt, rfl, rfl⟩
  | _ => cases h

/-- What is stored is seen under its own name and nowhere else. -/
theorem child?_putChild? {node made : Node} {seg : Seg} {outcome : Option Node}
    (h : node.putChild? seg outcome = some made) (other : Seg) :
    made.child? other = if seg = other then outcome else node.child? other := by
  rcases putChild?_inv h with ⟨label, fields, name, rfl, rfl, rfl⟩ |
    ⟨label, items, position, value, rfl, rfl, hlt, rfl, rfl⟩
  · cases other with
    | key key => simp [child?, Table.get?_put]
    | index place => rfl
  · cases other with
    | key key => rfl
    | index place => simp [child?, List.getElem?_set, hlt]

theorem kind_putChild? {node made : Node} {seg : Seg} {outcome : Option Node}
    (h : node.putChild? seg outcome = some made) : made.kind = node.kind := by
  rcases putChild?_inv h with ⟨label, fields, name, rfl, rfl, rfl⟩ |
    ⟨label, items, position, value, rfl, rfl, -, rfl, rfl⟩
  · rfl
  · rfl

theorem distinct_putChild? {node made : Node} {seg : Seg} {outcome : Option Node}
    (hnode : node.Distinct) (houtcome : DistinctSlot outcome)
    (h : node.putChild? seg outcome = some made) : made.Distinct := by
  rcases putChild?_inv h with ⟨label, fields, name, rfl, rfl, rfl⟩ |
    ⟨label, items, position, value, rfl, rfl, -, rfl, rfl⟩
  · obtain ⟨hkeys, hvalues⟩ := distinct_obj.mp hnode
    refine distinct_obj.mpr ⟨Table.distinct_put hkeys name outcome, fun field hfield => ?_⟩
    rcases Table.mem_put hfield with hkept | hmade
    · exact hvalues field hkept
    · exact houtcome field.2 hmade
  · refine distinct_arr.mpr fun item hitem => ?_
    rcases List.mem_or_eq_of_mem_set hitem with hkept | rfl
    · exact distinct_arr.mp hnode item hkept
    · exact houtcome item rfl

/-- Storing what is there changes nothing. -/
theorem putChild?_self {node child : Node} {seg : Seg} (h : node.child? seg = some child) :
    node.putChild? seg (some child) = some node := by
  cases node with
  | arr label items =>
      cases seg with
      | key name => cases h
      | index position =>
          obtain ⟨hlt, rfl⟩ := List.getElem?_eq_some_iff.mp h
          rw [putChild?, if_pos hlt, List.set_getElem_self]
  | obj label fields =>
      cases seg with
      | key name =>
          have hget : Table.get? fields name = some child := h
          rw [putChild?, Table.put, Table.set_of_get? hget]
      | index position => cases h
  | _ => cases h

/-- What was stored first is lost. -/
theorem putChild?_putChild? {node made : Node} {seg : Seg} {value : Node}
    (h : node.putChild? seg (some value) = some made) (later : Node) :
    made.putChild? seg (some later) = node.putChild? seg (some later) := by
  rcases putChild?_inv h with ⟨label, fields, name, rfl, rfl, rfl⟩ |
    ⟨label, items, position, _, rfl, rfl, hlt, hvalue, rfl⟩
  · rw [putChild?, putChild?, Table.put, Table.put, Table.put, Table.set_set]
  · rw [putChild?, putChild?, List.length_set, List.set_set]

/-! ### Storing at a path -/

/--
The tree with a value stored at a path, or with its key taken away; none where the
container is not found.
-/
def store? : Node → Path → Option Node → Option Node
  | _, [], _ => none
  | node, [seg], outcome => node.putChild? seg outcome
  | node, seg :: next :: rest, outcome =>
      (node.child? seg).bind fun child =>
        (store? child (next :: rest) outcome).bind fun made => node.putChild? seg (some made)

/-- Stores at each of the places, in order, what the new tree has there. -/
def patch (new : Node) (places : List Path) (old : Node) : Option Node :=
  places.foldlM (fun tree place => tree.store? place (new.at? place)) old

theorem store?_cons {node child : Node} {seg : Seg} {rest : Path} (hrest : rest ≠ [])
    (h : node.child? seg = some child) (outcome : Option Node) :
    node.store? (seg :: rest) outcome =
      (child.store? rest outcome).bind fun made => node.putChild? seg (some made) := by
  cases rest with
  | nil => exact absurd rfl hrest
  | cons next rest => rw [store?, h, Option.bind_some]

/-- Places below one name are stored in the child there. -/
theorem patch_below {new after : Node} {seg : Seg} (hafter : new.child? seg = some after)
    {places : List Path} (hplaces : [] ∉ places) :
    ∀ {tree before : Node}, tree.child? seg = some before →
      patch new (places.map (seg :: ·)) tree =
        (patch after places before).bind fun made => tree.putChild? seg (some made) := by
  induction places with
  | nil => intro tree before hbefore; exact (putChild?_self hbefore).symm
  | cons place places ih =>
      intro tree before hbefore
      obtain ⟨hplace, hrest⟩ := not_or.mp (mt List.mem_cons.mpr hplaces)
      have hvalue : new.at? (seg :: place) = after.at? place := by
        rw [at?, hafter, Option.bind_some]
      rw [patch, List.map_cons, List.foldlM_cons, hvalue, store?_cons (Ne.symm hplace) hbefore,
        patch, List.foldlM_cons]
      cases hstore : before.store? place (after.at? place) with
      | none => rfl
      | some made =>
          have hheld : (tree.child? seg).isSome := by rw [hbefore]; rfl
          obtain ⟨next, hnext⟩ := exists_putChild? made hheld
          have hmade : next.child? seg = some made := by
            rw [child?_putChild? hnext, if_pos rfl]
          show (tree.putChild? seg (some made)).bind (patch new (places.map (seg :: ·))) =
            (patch after places made).bind fun made => tree.putChild? seg (some made)
          rw [hnext, Option.bind_some, ih hrest hmade]
          exact congrArg _ (funext fun later => putChild?_putChild? hnext later)

/-! ### The finest places of a report -/

theorem mem_finest {places : List Path} {place : Path} :
    place ∈ finest places ↔ place ∈ places ∧ ∀ other ∈ places, place <+: other → other = place := by
  rw [finest, List.mem_filter, decide_eq_true_iff]

theorem finest_map_cons (seg : Seg) (places : List Path) :
    finest (places.map (seg :: ·)) = (finest places).map (seg :: ·) := by
  rw [finest, List.filter_map, finest]
  refine congrArg _ (List.filter_congr fun place _ => ?_)
  simp

/-- Places listed name by name are finest when they are among those of their name. -/
theorem finest_flatMap {segs : List Seg} {placesAt : Seg → List Path}
    (h : ∀ seg ∈ segs, ∀ place ∈ placesAt seg, ∃ rest, place = seg :: rest) :
    finest (segs.flatMap placesAt) = segs.flatMap fun seg => finest (placesAt seg) := by
  rw [finest, List.filter_flatMap]
  refine List.flatMap_congr fun seg hseg => List.filter_congr fun place hplace => ?_
  obtain ⟨rest, rfl⟩ := h seg hseg place hplace
  refine decide_eq_decide.mpr ⟨fun hall other hother => ?_, fun hhere other hother hpre => ?_⟩
  · exact hall other (List.mem_flatMap.mpr ⟨seg, hseg, hother⟩)
  · obtain ⟨name, hname, hother⟩ := List.mem_flatMap.mp hother
    obtain ⟨others, rfl⟩ := h name hname other hother
    obtain ⟨rfl, -⟩ := List.cons_prefix_cons.mp hpre
    exact hhere _ hother hpre

/-- A place with others below it is not among the finest, and those are judged by themselves. -/
theorem finest_cons (seg : Seg) {places : List Path} (hplaces : [] ∉ places) :
    finest ([seg] :: places.map (seg :: ·)) =
      if places = [] then [[seg]] else (finest places).map (seg :: ·) := by
  by_cases hempty : places = []
  · simp [hempty, finest]
  · obtain ⟨first, hfirst⟩ := List.exists_mem_of_ne_nil places hempty
    have hlater : seg :: first ∈ places.map (seg :: ·) := List.mem_map.mpr ⟨first, hfirst, rfl⟩
    have habove : ¬∀ other ∈ [seg] :: places.map (seg :: ·), [seg] <+: other → other = [seg] := by
      intro hall
      have heq := hall _ (List.mem_cons_of_mem _ hlater)
        (List.cons_prefix_cons.mpr ⟨rfl, List.nil_prefix⟩)
      exact hplaces ((List.cons.inj heq).2 ▸ hfirst)
    rw [if_neg hempty, ← finest_map_cons, finest, List.filter_cons_of_neg (by simpa using habove),
      finest]
    refine List.filter_congr fun place hplace => decide_eq_decide.mpr ?_
    obtain ⟨rest, hrest, rfl⟩ := List.mem_map.mp hplace
    have hnot : ¬seg :: rest <+: [seg] := by
      intro hpre
      have hnil : rest = [] := List.prefix_nil.mp (List.cons_prefix_cons.mp hpre).2
      exact hplaces (hnil ▸ hrest)
    rw [List.forall_mem_cons, and_iff_right fun hpre => absurd hpre hnot]

theorem nil_not_mem_changesBelow {old new : Node} (hnew : new.Distinct) :
    [] ∉ changesBelow [] old new := by
  rw [mem_changesBelow hnew]
  rintro ⟨seg, rest, heq, -⟩
  cases heq

/-- Under one name, the finest place is the name itself, or all of them lie below it. -/
theorem finest_changesAt {seg : Seg} {before after : Node} (hafter : after.Distinct) :
    finest (changesAt [] seg (some before) (some after)) =
      if before.same after then []
      else if changesBelow [] before after = [] then [[seg]]
      else (finest (changesBelow [] before after)).map (seg :: ·) := by
  rw [changesAt_some hafter]
  by_cases hsame : before.same after = true
  · rw [if_pos hsame, if_pos hsame]
    rfl
  · rw [if_neg hsame, if_neg hsame, finest_cons seg (nil_not_mem_changesBelow hafter)]

theorem finest_changesBelow {old new : Node} (h : Comparable old new) (hnew : new.Distinct) :
    finest (changesBelow [] old new) =
      (allNames old new).flatMap fun seg =>
        finest (changesAt [] seg (old.child? seg) (new.child? seg)) := by
  rw [changesBelow_eq h hnew]
  refine finest_flatMap fun seg _ place hplace => ?_
  obtain ⟨rest, heq, -⟩ := (mem_changesAt (hnew.child? seg)).mp hplace
  exact ⟨rest, heq⟩

/-! ### One name after another -/

/-- Where two trees hold the same container at a place, it has one content. -/
def Coherent (old new : Node) : Prop :=
  ∀ place before after, old.at? place = some before → new.at? place = some after →
    before.isContainer = true → before.same after = true → before.toJson = after.toJson

theorem Coherent.child {old new before after : Node} {seg : Seg} (h : Coherent old new)
    (hbefore : old.child? seg = some before) (hafter : new.child? seg = some after) :
    Coherent before after := by
  intro place one two hone htwo
  refine h (seg :: place) one two ?_ ?_
  · rw [at?, hbefore, Option.bind_some, hone]
  · rw [at?, hafter, Option.bind_some, htwo]

/-- The tree after one name: equal to the new one there, and as it was everywhere else. -/
structure PatchedAt (new : Node) (seg : Seg) (tree made : Node) : Prop where
  kind : made.kind = tree.kind
  distinct : made.Distinct
  here : EqvSlot (made.child? seg) (new.child? seg)
  away : ∀ other, other ≠ seg → made.child? other = tree.child? other

theorem patchedAt_putChild? {new tree made : Node} {seg : Seg} {outcome : Option Node}
    (htree : tree.Distinct) (houtcome : DistinctSlot outcome)
    (heqv : EqvSlot outcome (new.child? seg)) (h : tree.putChild? seg outcome = some made) :
    PatchedAt new seg tree made where
  kind := kind_putChild? h
  distinct := distinct_putChild? htree houtcome h
  here := by
    rw [child?_putChild? h, if_pos rfl]
    exact heqv
  away other hother := by rw [child?_putChild? h, if_neg (Ne.symm hother)]

theorem eqvSlot_refl {current : Option Node} (h : DistinctSlot current) :
    EqvSlot current current := by
  cases current with
  | none => exact .none
  | some value => exact .some (eqv_refl (h value rfl))

/-- The patch of the finest places turns the old tree into the new one. -/
def Patches (old new : Node) : Prop :=
  ∃ made, patch new (finest (changesBelow [] old new)) old = some made ∧
    made.Distinct ∧ made.eqv new = true

/-- A name that only one of two comparable nodes has is a key, and any object can take it. -/
theorem exists_putChild?_of_one_side {old new tree : Node} {seg : Seg} (h : Comparable old new)
    (hsides : (old.child? seg).isSome ≠ (new.child? seg).isSome) (hkind : tree.kind = old.kind) :
    ∃ made, tree.putChild? seg (new.child? seg) = some made := by
  cases old with
  | obj label before =>
      cases new with
      | obj other after =>
          cases seg with
          | index position => exact absurd rfl hsides
          | key name =>
              cases tree with
              | obj made fields => exact ⟨_, rfl⟩
              | _ => cases hkind
      | _ => cases h
  | arr label before =>
      cases new with
      | arr other after =>
          cases seg with
          | key name => exact absurd rfl hsides
          | index position =>
              have hlength : before.length = after.length := h
              refine absurd ?_ hsides
              rw [Bool.eq_iff_iff]
              simp [child?, hlength]
      | _ => cases h
  | _ => cases h

theorem finest_changesAt_of_one_side {seg : Seg} {old new : Option Node}
    (h : old.isSome ≠ new.isSome) : finest (changesAt [] seg old new) = [[seg]] := by
  cases old <;> cases new <;> simp [changesAt, finest] at h ⊢

/-- A place that is listed alone takes what the new tree has there. -/
theorem patch_single {new tree made : Node} {seg : Seg} (htree : tree.Distinct)
    (hnew : new.Distinct) (hput : tree.putChild? seg (new.child? seg) = some made) :
    ∃ made, patch new [[seg]] tree = some made ∧ PatchedAt new seg tree made := by
  have hvalue : new.at? [seg] = new.child? seg := by
    rw [at?]
    cases new.child? seg <;> rfl
  have hslot := hnew.child? seg
  refine ⟨made, ?_, patchedAt_putChild? htree hslot (eqvSlot_refl hslot) hput⟩
  rw [patch, List.foldlM_cons, hvalue, store?, hput]
  rfl

/-- **The finest places of one name change the child of that name, and no other.** -/
theorem patch_child {old new tree : Node} (hcomparable : Comparable old new)
    (hcoherent : Coherent old new) (hold : old.Distinct) (hnew : new.Distinct) (seg : Seg)
    (hbelow : ∀ before after, old.child? seg = some before → new.child? seg = some after →
      Comparable before after → Patches before after)
    (hkind : tree.kind = old.kind) (htree : tree.Distinct)
    (hchild : tree.child? seg = old.child? seg) :
    ∃ made, patch new (finest (changesAt [] seg (old.child? seg) (new.child? seg))) tree =
      some made ∧ PatchedAt new seg tree made := by
  by_cases hsides : (old.child? seg).isSome = (new.child? seg).isSome
  · cases hbefore : old.child? seg with
    | none =>
        have hafter : new.child? seg = none := by simpa [hbefore] using hsides
        rw [hafter]
        refine ⟨tree, rfl, rfl, htree, ?_, fun _ _ => rfl⟩
        rw [hchild, hbefore, hafter]
        exact .none
    | some before =>
        have hsome : (new.child? seg).isSome := by rw [← hsides, hbefore]; rfl
        obtain ⟨after, hafter⟩ := Option.isSome_iff_exists.mp hsome
        have hdistinct : after.Distinct := hnew.child? seg after hafter
        have hheld : (tree.child? seg).isSome := by rw [hchild, hbefore]; rfl
        rw [hbefore] at hchild
        rw [hafter, finest_changesAt hdistinct]
        by_cases hsame : before.same after = true
        · rw [if_pos hsame]
          refine ⟨tree, rfl, rfl, htree, ?_, fun _ _ => rfl⟩
          rw [hchild, hafter]
          refine .some (eqv_of_same (hold.child? seg before hbefore) hdistinct hsame fun h => ?_)
          exact hcoherent.child hbefore hafter [] before after rfl rfl h hsame
        rw [if_neg hsame]
        by_cases hnothing : changesBelow [] before after = []
        · obtain ⟨made, hput⟩ := exists_putChild? after hheld
          rw [if_pos hnothing]
          rw [← hafter] at hput
          exact patch_single htree hnew hput
        · have hpair : Comparable before after := by
            by_contra hnot
            exact hnothing (changesBelow_of_not_comparable hnot)
          obtain ⟨inner, hinner, hmade, heqv⟩ := hbelow before after hbefore hafter hpair
          obtain ⟨made, hput⟩ := exists_putChild? inner hheld
          have hnil : [] ∉ finest (changesBelow [] before after) :=
            fun h => nil_not_mem_changesBelow hdistinct (mem_finest.mp h).1
          rw [if_neg hnothing, patch_below hafter hnil hchild, hinner, Option.bind_some, hput]
          refine ⟨made, rfl, patchedAt_putChild? htree ?_ ?_ hput⟩
          · rintro value ⟨⟩
            exact hmade
          · rw [hafter]
            exact .some heqv
  · obtain ⟨made, hput⟩ := exists_putChild?_of_one_side hcomparable hsides hkind
    rw [finest_changesAt_of_one_side hsides]
    exact patch_single htree hnew hput

/-- The tree after some of the names: equal to the new one there, and as the old one elsewhere. -/
structure PatchedOn (old new : Node) (segs : List Seg) (tree : Node) : Prop where
  kind : tree.kind = old.kind
  distinct : tree.Distinct
  here : ∀ seg ∈ segs, EqvSlot (tree.child? seg) (new.child? seg)
  away : ∀ seg, seg ∉ segs → tree.child? seg = old.child? seg

theorem PatchedOn.next {old new tree made : Node} {segs : List Seg} {seg : Seg}
    (h : PatchedOn old new segs tree) (hmade : PatchedAt new seg tree made) :
    PatchedOn old new (segs ++ [seg]) made where
  kind := hmade.kind.trans h.kind
  distinct := hmade.distinct
  here other hother := by
    by_cases heq : other = seg
    · exact heq ▸ hmade.here
    · have hearlier : other ∈ segs := by simpa [heq] using hother
      rw [hmade.away other heq]
      exact h.here other hearlier
  away other hother := by
    have hnot : other ∉ segs ∧ other ≠ seg := by simpa using hother
    rw [hmade.away other hnot.2, h.away other hnot.1]

/-- **Going through names one after the other patches each and leaves the rest.** -/
theorem patch_names {old new : Node} (hcomparable : Comparable old new)
    (hcoherent : Coherent old new) (hold : old.Distinct) (hnew : new.Distinct)
    (hbelow : ∀ seg before after, old.child? seg = some before → new.child? seg = some after →
      Comparable before after → Patches before after) {segs : List Seg} :
    ∀ {done : List Seg} {tree : Node}, (done ++ segs).Nodup → PatchedOn old new done tree →
      ∃ made, patch new (segs.flatMap fun seg =>
          finest (changesAt [] seg (old.child? seg) (new.child? seg))) tree = some made ∧
        PatchedOn old new (done ++ segs) made := by
  induction segs with
  | nil =>
      intro done tree _ htree
      exact ⟨tree, rfl, by rwa [List.append_nil]⟩
  | cons seg segs ih =>
      intro done tree hnodup htree
      have hfresh : seg ∉ done := by
        intro hmem
        exact (List.nodup_append.mp hnodup).2.2 seg hmem seg List.mem_cons_self rfl
      rw [List.append_cons] at hnodup ⊢
      obtain ⟨next, hnext, hat⟩ := patch_child hcomparable hcoherent hold hnew seg (hbelow seg)
        htree.kind htree.distinct (htree.away seg hfresh)
      obtain ⟨made, hmade, hon⟩ := ih hnodup (htree.next hat)
      refine ⟨made, ?_, hon⟩
      unfold patch at hnext hmade ⊢
      rw [List.flatMap_cons, List.foldlM_append, hnext]
      exact hmade

/-! ### The whole of it -/

/-- **A report turns the one tree into the other, whatever the two containers hold.** -/
theorem patches {old new : Node} (hcomparable : Comparable old new) (hcoherent : Coherent old new)
    (hold : old.Distinct) (hnew : new.Distinct) : Patches old new := by
  induction old, new using pairInduction with
  | step old new ih =>
      have hbelow : ∀ seg before after, old.child? seg = some before →
          new.child? seg = some after → Comparable before after → Patches before after := by
        intro seg before after hbefore hafter hpair
        exact ih seg before after hbefore hafter hpair (hcoherent.child hbefore hafter)
          (hold.child? seg before hbefore) (hnew.child? seg after hafter)
      have hstart : PatchedOn old new [] old :=
        ⟨rfl, hold, fun seg hseg => absurd hseg List.not_mem_nil, fun _ _ => rfl⟩
      have hnodup : ([] ++ allNames old new).Nodup := nodup_allNames hold hnew
      obtain ⟨made, hmade, hon⟩ :=
        patch_names hcomparable hcoherent hold hnew hbelow hnodup hstart
      rw [List.nil_append] at hon
      rw [Patches, finest_changesBelow hcomparable hnew]
      refine ⟨made, hmade, hon.distinct, ?_⟩
      have hslots : ∀ seg, EqvSlot (made.child? seg) (new.child? seg) := by
        intro seg
        by_cases hseg : seg ∈ allNames old new
        · exact hon.here seg hseg
        · -- A name that neither has is still missing.
          have hnone : old.child? seg = none ∧ new.child? seg = none := by
            simpa [mem_allNames] using hseg
          rw [hon.away seg hseg, hnone.1, hnone.2]
          exact .none
      obtain ⟨hkind, hcontainer⟩ := hcomparable.kind
      exact eqv_of_children (hon.kind.trans hkind) hcontainer hon.distinct hnew hslots

/--
**The finest places of a report are enough.**  Take two objects, two arrays of one length, or
one node twice, such that no container is found on both sides with another content.  Going
through the places that no other place of the report lies below, and storing at each what
the new tree has there or taking its key away, finds every container on the way and ends in
a tree equal to the new one.
-/
theorem patch_changes {old new : Node} (hold : old.Distinct) (hnew : new.Distinct)
    (hcoherent : Coherent old new)
    (h : old.kind = .object ∧ new.kind = .object ∨
      old.kind = .array ∧ new.kind = .array ∧ old.size = new.size ∨ old.same new = true) :
    ∃ patched, patch new (finest (old.changes new)) old = some patched ∧
      patched.eqv new = true := by
  by_cases hsame : old.same new = true
  · refine ⟨old, ?_, ?_⟩
    · rw [changes, if_pos hsame]
      rfl
    · exact eqv_of_same hold hnew hsame fun hcontainer =>
        hcoherent [] old new rfl rfl hcontainer hsame
  · have hcomparable : Comparable old new := by
      rw [comparable_iff]
      rcases h with hobjects | harrays | hnode
      · exact Or.inl hobjects
      · exact Or.inr harrays
      · exact absurd hnode hsame
    obtain ⟨made, hmade, -, heqv⟩ := patches hcomparable hcoherent hold hnew
    refine ⟨made, ?_, heqv⟩
    rw [changes, if_neg hsame]
    exact hmade

/-- An item is stored below the list that is kept, and a key is taken away. -/
theorem patch_changes_object :
    ∃ patched, patch (obj 2 [("list", arr 3 [str "item"])])
        (finest ((obj 0 [("list", arr 1 [null]), ("gone", null)]).changes
          (obj 2 [("list", arr 3 [str "item"])])))
        (obj 0 [("list", arr 1 [null]), ("gone", null)]) = some patched ∧
      patched.eqv (obj 2 [("list", arr 3 [str "item"])]) = true := by
  refine patch_changes ?_ ?_ ?_ (Or.inl ⟨rfl, rfl⟩)
  · simp [Distinct, DistinctFields, DistinctItems, Table.Distinct, Table.keys]
  · simp [Distinct, DistinctFields, DistinctItems, Table.Distinct, Table.keys]
  · -- The two lists are the only containers at one place besides the roots.
    intro place before after hbefore hafter hcontainer hsame
    cases place with
    | nil => cases hbefore; cases hafter; cases hsame
    | cons seg rest =>
        cases seg with
        | index position => cases hbefore
        | key name =>
            by_cases hname : "list" = name
            · subst hname
              cases rest with
              | nil => cases hbefore; cases hafter; cases hsame
              | cons seg rest =>
                  cases seg with
                  | key name => cases hbefore
                  | index position =>
                      cases position with
                      | succ position => cases hbefore
                      | zero =>
                          cases rest with
                          | nil => cases hbefore; cases hcontainer
                          | cons seg rest => cases hbefore
            · simp [at?, child?, Table.get?, hname] at hafter

end Node

end Reducer
