/-
One pass or many.

Whether a tree is changed slice by slice or in one pass from the root down makes no
difference, and this has nothing to do with tries, labels or what the changes are.  So
it is shown for any way `act` of changing the value of a slot, which may fail: a
`tour` is the one pass, `change` is a single slice.

The step is `tour_eq_change`.  If nothing happens on the way to a slice, then making
its change first and touring without it afterwards is the same as the tour.  Every
other slot is away from the slice, below it, or on the way; the first are not affected
by the change, the second are toured afterwards in either case, and nothing happens at
the third.  An order that puts every slice before its extensions meets this condition
at each slice in turn.
-/
import Reducer.Proofs.Sweep.Basic
import Reducer.Proofs.Walk.Slots

namespace Reducer

/-- Leaves the value of a slot as it is. -/
def stay (value : Node) : Option (Option Node) := some (some value)

/-- Changes a slot's value, and goes deeper into what it then holds. -/
def tourSlot (act : Path → Node → Option (Option Node)) (deeper : Path → Node → Option Node)
    (path : Path) (child : Node) : Option (Option Node) :=
  (act path child).bind fun
    | none => some none
    | some value => (deeper path value).map some

/-- Changes every slot on the way down, at most `depth` deep. -/
def tour (act : Path → Node → Option (Option Node)) : Nat → Path → Node → Option Node
  | depth + 1, path, .obj label fields =>
      (Walker.visitFields (fun seg child => tourSlot act (tour act depth) (path ++ [seg]) child)
        fields).map (.obj label)
  | _, _, node => some node

/-- Changes the value at one slice, seen from a slot above it. -/
def changeSlot (act : Node → Option (Option Node)) (slice : Path) (child : Node) :
    Option (Option Node) :=
  match child.at? slice with
  | none => some (some child)
  | some value => (act value).map fun outcome => Node.replace outcome slice child

/-- Changes the value at one slice of a tree. -/
def change (act : Path → Node → Option (Option Node)) (tree : Node) (slice : Path) : Option Node :=
  match tree.at? slice with
  | none => some tree
  | some value => (act slice value).map fun outcome => (Node.replace outcome slice tree).getD tree

/-- The same changes but for one slice. -/
def without (act : Path → Node → Option (Option Node)) (slice : Path) :
    Path → Node → Option (Option Node) :=
  fun path => if path = slice then stay else act path

/-! ### Fields, one after the other -/

section Fields

variable {f g : Seg → Node → Option (Option Node)}

theorem visitFields_congr {fields : List (String × Node)}
    (h : ∀ field ∈ fields, f (.key field.1) field.2 = g (.key field.1) field.2) :
    Walker.visitFields f fields = Walker.visitFields g fields := by
  induction fields with
  | nil => rfl
  | cons field rest ih =>
      obtain ⟨name, value⟩ := field
      obtain ⟨hfirst, hrest⟩ := List.forall_mem_cons.mp h
      rw [visitFields_cons, visitFields_cons, hfirst, ih hrest]

theorem visitFields_stay {fields : List (String × Node)}
    (h : ∀ field ∈ fields, f (.key field.1) field.2 = some (some field.2)) :
    Walker.visitFields f fields = some fields := by
  induction fields with
  | nil => rfl
  | cons field rest ih =>
      obtain ⟨name, value⟩ := field
      obtain ⟨hfirst, hrest⟩ := List.forall_mem_cons.mp h
      rw [visitFields_cons, hfirst, ih hrest]
      rfl

/-- One field may be changed before the others are visited. -/
theorem visitFields_put (f g : Seg → Node → Option (Option Node))
    {fields : List (String × Node)} {name : String} {child : Node} {first : Option (Option Node)}
    (hdistinct : Table.Distinct fields) (hget : Table.get? fields name = some child)
    (hother : ∀ key value, key ≠ name → f (.key key) value = g (.key key) value)
    (hslot : f (.key name) child = first.bind fun
      | none => some none
      | some value => g (.key name) value) :
    Walker.visitFields f fields =
      first.bind fun outcome => Walker.visitFields g (Table.put fields name outcome) := by
  induction fields with
  | nil => cases hget
  | cons field rest ih =>
      obtain ⟨key, value⟩ := field
      obtain ⟨hfresh, hrest⟩ := List.nodup_cons.mp hdistinct
      rw [Table.get?_cons] at hget
      by_cases hkey : key = name
      · subst hkey
        rw [if_pos rfl] at hget
        cases hget
        have hothers : Walker.visitFields f rest = Walker.visitFields g rest := by
          refine visitFields_congr fun field hfield => hother _ _ ?_
          rintro rfl
          exact hfresh (List.mem_map.mpr ⟨field, hfield, rfl⟩)
        rw [visitFields_cons, hothers, hslot]
        cases first with
        | none => rfl
        | some outcome =>
            cases outcome with
            | none =>
                rw [Option.bind_some, Option.bind_some, Option.bind_some,
                  Table.put_cons_none hfresh]
                cases Walker.visitFields g rest <;> rfl
            | some made =>
                rw [Option.bind_some, Option.bind_some, Table.put_cons_some, visitFields_cons]
      · rw [if_neg hkey] at hget
        rw [visitFields_cons, hother key value hkey, ih hrest hget]
        cases first with
        | none => cases g (.key key) value <;> rfl
        | some outcome =>
            rw [Option.bind_some, Option.bind_some, Table.put_cons_of_ne hkey, visitFields_cons]

end Fields

/-! ### Tours -/

section Tours

variable {act other : Path → Node → Option (Option Node)}

theorem tourSlot_congr {deeper deeper' : Path → Node → Option Node} {path : Path}
    (hhere : act path = other path) (hdeeper : deeper path = deeper' path) :
    tourSlot act deeper path = tourSlot other deeper' path := by
  funext child
  rw [tourSlot, tourSlot, hhere, hdeeper]

/-- A tour only depends on what happens below its path. -/
theorem tour_congr (depth : Nat) :
    ∀ (path : Path) (node : Node), (∀ rest, rest ≠ [] → act (path ++ rest) = other (path ++ rest)) →
      tour act depth path node = tour other depth path node := by
  induction depth with
  | zero => intro path node _; rfl
  | succ depth ih =>
      intro path node h
      cases node with
      | obj label fields =>
          rw [tour, tour]
          refine congrArg _ (visitFields_congr fun field _ => ?_)
          refine congrFun (tourSlot_congr (h [.key field.1] (by simp)) (funext fun value => ?_)) _
          refine ih _ value fun rest _ => ?_
          rw [List.append_assoc]
          exact h _ (by simp)
      | _ => rfl

/-- A tour on which nothing happens. -/
theorem tour_stay (depth : Nat) :
    ∀ (path : Path) (node : Node), (∀ rest, rest ≠ [] → act (path ++ rest) = stay) →
      tour act depth path node = some node := by
  induction depth with
  | zero => intro path node _; rfl
  | succ depth ih =>
      intro path node h
      cases node with
      | obj label fields =>
          rw [tour, visitFields_stay]
          · rfl
          · intro field _
            have hdeeper : tour act depth (path ++ [.key field.1]) field.2 = some field.2 := by
              refine ih _ field.2 fun rest _ => ?_
              rw [List.append_assoc]
              exact h _ (by simp)
            rw [tourSlot, h [.key field.1] (by simp), stay, Option.bind_some]
            show (tour act depth _ field.2).map some = _
            rw [hdeeper, Option.map_some]
      | _ => rfl

theorem without_of_ne {slice path : Path} (h : path ≠ slice) :
    without act slice path = act path := by
  rw [without, if_neg h]

theorem without_self (slice : Path) : without act slice slice = stay := by
  rw [without, if_pos rfl]

theorem tourSlot_of_stay {deeper : Path → Node → Option Node} {path : Path}
    (h : act path = stay) (child : Node) :
    tourSlot act deeper path child = (deeper path child).map some := by
  rw [tourSlot, h]
  rfl

theorem changeSlot_cons {change : Node → Option (Option Node)} {name : String} {rest : Path}
    {label : Label} {fields : List (String × Node)} {child : Node}
    (hget : Table.get? fields name = some child) :
    changeSlot change (.key name :: rest) (.obj label fields) =
      (changeSlot change rest child).map fun outcome =>
        some (.obj label (Table.put fields name outcome)) := by
  have hat : (Node.obj label fields).at? (.key name :: rest) = child.at? rest := by
    rw [Node.at?, Node.child?, hget, Option.bind_some]
  rw [changeSlot, changeSlot, hat]
  cases child.at? rest with
  | none => rw [Option.map_some, Table.put, Table.set_of_get? hget]
  | some value =>
      show (change value).map _ = ((change value).map _).map _
      rw [Option.map_map]
      refine congrArg (fun f => (change value).map f) (funext fun outcome => ?_)
      exact Node.replace_cons hget

/-- A slot may be changed before what it then holds is toured. -/
theorem tourSlot_eq_act (depth : Nat) (path : Path) (child : Node) :
    tourSlot act (tour act depth) path child =
      (act path child).bind fun
        | none => some none
        | some value => tourSlot (without act path) (tour (without act path) depth) path value := by
  have hdeeper : tour act depth path = tour (without act path) depth path := by
    funext value
    refine tour_congr depth path value fun rest hrest => (without_of_ne ?_).symm
    simpa using hrest
  rw [tourSlot, hdeeper]
  refine congrArg (fun f => (act path child).bind f) (funext fun outcome => ?_)
  cases outcome with
  | none => rfl
  | some value => exact (tourSlot_of_stay (without_self path) value).symm

/-- Slots beside the one on the way to a slice are toured alike with and without it. -/
theorem tourSlot_beside {key name : String} (hkey : key ≠ name) (depth : Nat) (path rest : Path) :
    tourSlot act (tour act depth) (path ++ [.key key]) =
      tourSlot (without act (path ++ .key name :: rest))
        (tour (without act (path ++ .key name :: rest)) depth) (path ++ [.key key]) := by
  have hslot : ∀ more, act (path ++ [.key key] ++ more) =
      without act (path ++ .key name :: rest) (path ++ [.key key] ++ more) := by
    intro more
    refine (without_of_ne ?_).symm
    simp [hkey]
  have hhere := hslot []
  rw [List.append_nil] at hhere
  exact tourSlot_congr hhere (funext fun value => tour_congr depth _ value fun more _ => hslot more)

/-- A slice that is absent is not missed. -/
theorem tour_of_absent {name : String} {child : Node} (h : child.child? (.key name) = none)
    (depth : Nat) (path rest : Path) :
    tour act depth path child = tour (without act (path ++ .key name :: rest)) depth path child := by
  cases depth with
  | zero => rfl
  | succ depth =>
      cases child with
      | obj label fields =>
          rw [tour, tour]
          refine congrArg _ (visitFields_congr fun field hfield => ?_)
          have hkey : field.1 ≠ name := by
            rintro rfl
            exact (Table.get?_eq_none_iff _ _).mp h (List.mem_map.mpr ⟨field, hfield, rfl⟩)
          exact congrFun (tourSlot_beside hkey depth path rest) field.2
      | _ => rfl

/-- **A slice may be changed before the tour, if nothing happens on the way to it.** -/
theorem tourSlot_eq_changeSlot {rest : Path} :
    ∀ {depth : Nat} {path : Path} {child : Node}, rest.Keyed → rest.length ≤ depth →
      child.Distinct →
      (∀ above, above <+: rest → above ≠ rest → act (path ++ above) = stay) →
      tourSlot act (tour act depth) path child =
        (changeSlot (act (path ++ rest)) rest child).bind fun
          | none => some none
          | some value => tourSlot (without act (path ++ rest))
              (tour (without act (path ++ rest)) depth) path value := by
  induction rest with
  | nil =>
      intro depth path child _ _ _ _
      have hhere : changeSlot (act path) [] child = act path child := by
        rw [changeSlot, Node.at?]
        exact Option.map_id'
      rw [List.append_nil, hhere]
      exact tourSlot_eq_act depth path child
  | cons seg rest ih =>
      intro depth path child hkeyed hdepth hdistinct habove
      obtain ⟨⟨name, rfl⟩, hrest⟩ := List.forall_mem_cons.mp hkeyed
      obtain ⟨depth, rfl⟩ : ∃ less, depth = less + 1 := Nat.exists_eq_add_one.mpr
        (Nat.lt_of_lt_of_le (Nat.succ_pos _) hdepth)
      have htop : act path = stay := by
        simpa using habove [] List.nil_prefix (by simp)
      have hstay : without act (path ++ .key name :: rest) path = stay := by
        rw [without_of_ne (by simp), htop]
      rw [tourSlot_of_stay htop]
      cases hat : child.child? (.key name) with
      | none =>
          have habsent : child.at? (.key name :: rest) = none := by
            rw [Node.at?, hat, Option.bind_none]
          rw [changeSlot, habsent, tour_of_absent hat]
          exact (tourSlot_of_stay hstay child).symm
      | some inner =>
          obtain ⟨label, fields, rfl, hget⟩ := Node.child?_key hat
          obtain ⟨hkeys, hvalues⟩ := Node.distinct_obj.mp hdistinct
          have hassoc : path ++ [Seg.key name] ++ rest = path ++ .key name :: rest := by simp
          have hway : ∀ above, above <+: rest → above ≠ rest →
              act (path ++ [.key name] ++ above) = stay := by
            intro above hpre hne
            rw [List.append_assoc]
            exact habove (.key name :: above) (List.cons_prefix_cons.mpr ⟨rfl, hpre⟩)
              fun heq => hne (List.cons.inj heq).2
          have hinner := ih hrest (Nat.le_of_succ_le_succ hdepth)
            (hvalues _ (Table.mem_of_get? hget)) hway
          rw [hassoc] at hinner
          have hfields := visitFields_put
            (fun seg value => tourSlot act (tour act depth) (path ++ [seg]) value)
            (fun seg value => tourSlot _ (tour _ depth) (path ++ [seg]) value) hkeys hget
            (fun key value hkey => congrFun (tourSlot_beside hkey depth path rest) value) hinner
          rw [tour, hfields, changeSlot_cons hget]
          cases changeSlot (act (path ++ .key name :: rest)) rest inner with
          | none => rfl
          | some outcome =>
              show _ = tourSlot _ _ path _
              rw [tourSlot_of_stay hstay, tour]
              rfl

/-! ### Sweeps without labels -/

theorem foldlM_change_congr {order : List Path} (h : ∀ slice ∈ order, act slice = other slice)
    (tree : Node) : order.foldlM (change act) tree = order.foldlM (change other) tree := by
  induction order generalizing tree with
  | nil => rfl
  | cons slice rest ih =>
      obtain ⟨hfirst, hrest⟩ := List.forall_mem_cons.mp h
      rw [List.foldlM_cons, List.foldlM_cons, change, change, hfirst]
      exact bind_congr fun next => ih hrest next

/-- The first slice of a sweep, and a tour without it. -/
theorem tour_eq_change {depth : Nat} {slice : Path} {tree : Node} (htop : act [] = stay)
    (hslice : slice ≠ []) (hkeyed : slice.Keyed) (hdepth : slice.length ≤ depth)
    (htree : tree.Distinct)
    (habove : ∀ above, above <+: slice → above ≠ slice → act above = stay) :
    tour act depth [] tree =
      (change act tree slice).bind (tour (without act slice) depth []) := by
  have hslots : tourSlot act (tour act depth) [] tree = _ :=
    tourSlot_eq_changeSlot hkeyed hdepth htree habove
  rw [List.nil_append, tourSlot_of_stay htop] at hslots
  have hstay : without act slice [] = stay := by
    rw [without_of_ne (Ne.symm hslice), htop]
  rw [changeSlot] at hslots
  rw [change]
  cases hat : tree.at? slice with
  | none =>
      rw [hat, Option.bind_some] at hslots
      have hsame := hslots.trans (tourSlot_of_stay hstay tree)
      exact Option.map_injective (fun _ _ => Option.some.inj) hsame
  | some value =>
      rw [hat] at hslots
      dsimp only at hslots ⊢
      cases hact : act slice value with
      | none =>
          rw [hact] at hslots
          exact Option.map_eq_none_iff.mp hslots
      | some outcome =>
          obtain ⟨next, hnext⟩ := Node.exists_replace hslice outcome tree
          rw [hact, Option.map_some, Option.bind_some, hnext] at hslots
          have hsame := hslots.trans (tourSlot_of_stay hstay next)
          rw [Option.map_some, Option.bind_some, hnext, Option.getD_some]
          exact Option.map_injective (fun _ _ => Option.some.inj) hsame

/-- Values with distinct keys are changed to such values. -/
def KeepsDistinct (act : Path → Node → Option (Option Node)) : Prop :=
  ∀ path value outcome, value.Distinct → act path value = some outcome → Node.DistinctSlot outcome

theorem KeepsDistinct.without (h : KeepsDistinct act) (slice : Path) :
    KeepsDistinct (without act slice) := by
  intro path value outcome hvalue houtcome
  by_cases hpath : path = slice
  · rw [hpath, without_self] at houtcome
    cases houtcome
    intro made hmade
    cases hmade
    exact hvalue
  · rw [without_of_ne hpath] at houtcome
    exact h path value outcome hvalue houtcome

theorem KeepsDistinct.change (hact : KeepsDistinct act) {slice : Path} {tree next : Node}
    (htree : tree.Distinct) (h : change act tree slice = some next) : next.Distinct := by
  rw [Reducer.change] at h
  cases hat : tree.at? slice with
  | none =>
      rw [hat] at h
      cases h
      exact htree
  | some value =>
      rw [hat] at h
      obtain ⟨outcome, houtcome, rfl⟩ := Option.map_eq_some_iff.mp h
      have hvalue : value.Distinct := Node.inherited_distinct.at? htree hat
      have hmade : Node.DistinctSlot (Node.replace outcome slice tree) :=
        Node.distinct_replace (hact slice value outcome hvalue houtcome) htree
      cases hnext : Node.replace outcome slice tree with
      | none => exact htree
      | some made => exact hmade made hnext

/-- **A sweep in an order that puts slices before their extensions is a tour.** -/
theorem foldlM_change_eq_tour {order : List Path} {depth : Nat} :
    ∀ {act : Path → Node → Option (Option Node)} {tree : Node}, tree.Distinct →
      KeepsDistinct act → order.Pairwise (fun a b => ¬b <+: a) →
      (∀ slice ∈ order, slice ≠ [] ∧ slice.Keyed ∧ slice.length ≤ depth) →
      (∀ path, path ∉ order → act path = stay) →
      order.foldlM (change act) tree = tour act depth [] tree := by
  induction order with
  | nil =>
      intro act tree _ _ _ _ hstay
      exact (tour_stay depth [] tree fun rest _ => hstay rest (by simp)).symm
  | cons slice rest ih =>
      intro act tree htree hact horder hslices hstay
      obtain ⟨hfirst, hrest⟩ := List.pairwise_cons.mp horder
      obtain ⟨⟨hslice, hkeyed, hdepth⟩, hothers⟩ := List.forall_mem_cons.mp hslices
      have habove : ∀ above, above <+: slice → above ≠ slice → act above = stay := by
        intro above hpre hne
        refine hstay above fun hmem => ?_
        rcases List.mem_cons.mp hmem with heq | hlater
        · exact hne heq
        · exact hfirst above hlater hpre
      have htop : act [] = stay := habove [] List.nil_prefix (Ne.symm hslice)
      rw [tour_eq_change htop hslice hkeyed hdepth htree habove, List.foldlM_cons]
      show (change act tree slice).bind _ = _
      cases hchange : change act tree slice with
      | none => rfl
      | some next =>
          rw [Option.bind_some, Option.bind_some]
          -- None of the later slices is this one, so they may all be changed without it.
          have hwithout : ∀ other ∈ rest, act other = without act slice other := by
            intro other hmem
            refine (without_of_ne ?_).symm
            rintro rfl
            exact hfirst other hmem (List.prefix_refl _)
          rw [foldlM_change_congr hwithout]
          refine ih (hact.change htree hchange) (hact.without slice) hrest hothers ?_
          intro path hmem
          by_cases hpath : path = slice
          · rw [hpath, without_self]
          · rw [without_of_ne hpath]
            exact hstay path fun h => (List.mem_cons.mp h).elim hpath hmem

end Tours

end Reducer
