/-
Two readings of redirects.

Redirects are read twice.  Where a slice becomes steps, the slice of the redirected property
comes in the property's place; where the view is made, the property gets the node which that
slice leads to.  The first reading is in terms of places and the second in terms of nodes, and
nothing in either refers to the other.

`Slice.spliced` is the slice that both stand for.  The steps are its steps, `steps_eq`, and
what a slice of names leads to in the view is what the spliced slice leads to at the root,
`resolve_view`.  They part in one case only: of a property that is sent to nothing the view
shows null.
-/
import Reducer.Proofs.Trie
import Reducer.Proofs.View

namespace Reducer

open Build

namespace Slice

/-- The slice with the slice of a redirected property in place of the property. -/
def spliced (slice : Slice) (redirects : Option Redirects) : Slice :=
  match slice, redirects with
  | .key name :: rest, some redirects =>
      match Table.get? redirects name with
      | some target => target ++ rest
      | none => slice
  | _, _ => slice

/-- How many parts of the spliced slice come from redirects. -/
def borrowed (slice : Slice) (redirects : Option Redirects) : Nat :=
  match slice, redirects with
  | .key name :: _, some redirects => ((Table.get? redirects name).getD []).length
  | _, _ => 0

/-- Every part names one child. -/
def Literal (slice : Slice) : Prop :=
  ∀ part ∈ slice, part.seg?.isSome = true

/-- The names in the slice. -/
def path (slice : Slice) : Path :=
  slice.filterMap Part.seg?

/-- A slice begins with a redirected property, or redirects are nothing to it. -/
theorem redirected_or (slice : Slice) (redirects : Option Redirects) :
    (∃ name rest held target, slice = .key name :: rest ∧ redirects = some held ∧
      Table.get? held name = some target) ∨
    slice.spliced redirects = slice ∧ slice.borrowed redirects = 0 ∧
      slice.steps redirects = slice.map (Step.ofPart false) := by
  cases redirects with
  | none => cases slice with
    | nil => exact Or.inr ⟨rfl, rfl, rfl⟩
    | cons part rest => cases part <;> exact Or.inr ⟨rfl, rfl, rfl⟩
  | some held => cases slice with
    | nil => exact Or.inr ⟨rfl, rfl, rfl⟩
    | cons part rest => cases part with
      | key name =>
          cases hget : Table.get? held name with
          | none => exact Or.inr (by simp [spliced, borrowed, steps, hget])
          | some target => exact Or.inl ⟨name, rest, held, target, rfl, rfl, hget⟩
      | _ => exact Or.inr ⟨rfl, rfl, rfl⟩

theorem spliced_of_get? {held : Redirects} {name : String} {target : Slice}
    (h : Table.get? held name = some target) (rest : Slice) :
    spliced (.key name :: rest) (some held) = target ++ rest := by
  simp only [spliced, h]

theorem mem_spliced {slice : Slice} {redirects : Option Redirects} {part : Part}
    (h : part ∈ slice.spliced redirects) :
    part ∈ slice ∨ ∃ held, redirects = some held ∧ ∃ entry ∈ held, part ∈ entry.2 := by
  rcases redirected_or slice redirects with
    ⟨name, rest, held, target, rfl, rfl, hget⟩ | ⟨hspliced, -, -⟩
  · rw [spliced_of_get? hget] at h
    rcases List.mem_append.mp h with hborrowed | hown
    · exact Or.inr ⟨held, rfl, _, Table.mem_of_get? hget, hborrowed⟩
    · exact Or.inl (List.mem_cons_of_mem _ hown)
  · exact Or.inl (hspliced ▸ h)

/-! ### As steps -/

theorem map_zipIdx_of_lt {β γ : Type} (f : Bool → β → γ) (front rest : List β) :
    ((front ++ rest).zipIdx.map fun item => f (item.2 < front.length) item.1) =
      front.map (f true) ++ rest.map (f false) := by
  have hconst : ∀ (flag : Bool) (start : Nat) (items : List β),
      (∀ item ∈ items.zipIdx start, decide (item.2 < front.length) = flag) →
      ((items.zipIdx start).map fun item => f (item.2 < front.length) item.1) =
        items.map (f flag) := by
    intro flag start items h
    rw [List.map_congr_left fun item hitem => by rw [h item hitem],
      ← List.zipIdx_map_fst start items, List.map_map, List.zipIdx_map_fst]
    rfl
  rw [List.zipIdx_append, List.map_append, hconst true 0 front, hconst false _ rest]
  · intro item hitem
    have hbound := List.le_snd_of_mem_zipIdx hitem
    exact decide_eq_false (by omega)
  · intro item hitem
    have hbound := List.snd_lt_of_mem_zipIdx hitem
    exact decide_eq_true (by omega)

/--
**The steps of a slice are those of the spliced slice**, and the predicates that see the state
are those that come from redirects.
-/
theorem steps_eq (slice : Slice) (redirects : Option Redirects) :
    slice.steps redirects = (slice.spliced redirects).zipIdx.map fun part =>
      Step.ofPart (part.2 < slice.borrowed redirects) part.1 := by
  rcases redirected_or slice redirects with
    ⟨name, rest, held, target, rfl, rfl, hget⟩ | ⟨hspliced, hborrowed, hsteps⟩
  · rw [spliced_of_get? hget, borrowed, hget]
    simp only [steps, hget, Option.getD_some]
    exact (map_zipIdx_of_lt Step.ofPart target rest).symm
  · rw [hspliced, hborrowed, hsteps]
    exact (map_zipIdx_of_lt Step.ofPart [] slice).symm

theorem path_cons {part : Part} {seg : Seg} (h : part.seg? = some seg) (rest : Slice) :
    path (part :: rest) = seg :: path rest :=
  List.filterMap_cons_some h

theorem ofPart_of_seg? {part : Part} {seg : Seg} (h : part.seg? = some seg) (unmapped : Bool) :
    Step.ofPart unmapped part = .literal seg := by
  cases part <;> cases h <;> rfl

theorem Literal.spliced {slice : Slice} {redirects : Option Redirects} (h : slice.Literal)
    (htargets : ∀ held, redirects = some held → ∀ entry ∈ held, Literal entry.2) :
    (slice.spliced redirects).Literal := by
  intro part hpart
  rcases mem_spliced hpart with hown | ⟨held, hheld, entry, hentry, hborrowed⟩
  · exact h part hown
  · exact htargets held hheld entry hentry part hborrowed

/-- Where the spliced slice is one of names, the steps are those of its path. -/
theorem Literal.steps_eq {slice : Slice} {redirects : Option Redirects}
    (h : (slice.spliced redirects).Literal) :
    slice.steps redirects = (slice.spliced redirects).path.steps := by
  have hparts : ∀ (flag : Nat → Bool) (start : Nat) (parts : Slice), parts.Literal →
      ((parts.zipIdx start).map fun part => Step.ofPart (flag part.2) part.1) =
        parts.path.steps := by
    intro flag start parts hparts
    induction parts generalizing start with
    | nil => rfl
    | cons part rest ih =>
        obtain ⟨hpart, hrest⟩ := List.forall_mem_cons.mp hparts
        obtain ⟨seg, hseg⟩ := Option.isSome_iff_exists.mp hpart
        rw [List.zipIdx_cons, List.map_cons, ih _ hrest, ofPart_of_seg? hseg, path_cons hseg]
        rfl
  rw [Slice.steps_eq]
  exact hparts (fun position => position < slice.borrowed redirects) 0 _ h

/-! ### As nodes -/

variable {action : Action} {root : Node}

theorem resolveFrom_append (front rest : Slice) (node : Node) :
    resolveFrom action root node (front ++ rest) =
      (resolveFrom action root node front).bind (resolveFrom action root · rest) := by
  induction front generalizing node with
  | nil => rfl
  | cons part front ih =>
      rw [List.cons_append, resolveFrom, resolveFrom, Option.bind_assoc]
      exact congrArg _ (funext ih)

theorem resolve_append (front rest : Slice) :
    resolve (front ++ rest) action root =
      (resolve front action root).bind (resolveFrom action root · rest) :=
  resolveFrom_append front rest root

/-- A slice of names leads to the node at its path, and asks neither the action nor the state. -/
theorem Literal.resolveFrom_eq {slice : Slice} (h : slice.Literal) (node : Node) :
    resolveFrom action root node slice = node.at? slice.path := by
  induction slice generalizing node with
  | nil => rfl
  | cons part rest ih =>
      obtain ⟨hpart, hrest⟩ := List.forall_mem_cons.mp h
      obtain ⟨seg, hseg⟩ := Option.isSome_iff_exists.mp hpart
      have hchild : part.resolve action root node = node.child? seg := by
        cases part <;> cases hseg <;> rfl
      rw [resolveFrom, path_cons hseg, Node.at?, hchild]
      exact congrArg _ (funext (ih hrest))

end Slice

namespace Redirects

/-- The property is there at the root, or is not redirected. -/
def Shows (redirects : Option Redirects) (fields : List (String × Node)) (name : String) : Prop :=
  (Table.get? fields name).isSome = true ∨
    ∀ held, redirects = some held → Table.get? held name = none

variable {redirects : Option Redirects} {action : Action} {root : Label}
  {fields : List (String × Node)} {built : Node} {label after : Label} {name : String}

/-- At a redirected property that is there, the view has what its slice leads to, or null. -/
theorem child?_view {held : Redirects} {target : Slice} (hget : Table.get? held name = some target)
    (hfield : (Table.get? fields name).isSome = true)
    (h : (view (some held) action (.obj root fields)).run label = .ok (built, after)) :
    built.child? (.key name) = some ((target.resolve action (.obj root fields)).getD .null) := by
  obtain ⟨value, hvalue⟩ := Option.isSome_iff_exists.mp hfield
  cases h
  rw [Node.child?, Table.get?_map (held.shown action (.obj root fields)), hvalue, Option.map_some,
    shown, hget]

/-- At a property that is not redirected the view has what the root has. -/
theorem child?_view_of_none
    (hnone : ∀ held, redirects = some held → Table.get? held name = none)
    (h : (view redirects action (.obj root fields)).run label = .ok (built, after)) :
    built.child? (.key name) = Table.get? fields name := by
  cases redirects with
  | none =>
      cases h
      rfl
  | some held =>
      cases h
      rw [Node.child?, Table.get?_map (held.shown action (.obj root fields))]
      have hkept : held.shown action (.obj root fields) name = id := by
        funext value
        rw [shown, hnone held rfl]
        rfl
      rw [hkept, Option.map_id]
      rfl

/--
**What a slice leads to in the view is what the spliced slice leads to at the root**, and only
a property alone that is sent to nothing leads to null instead.
-/
theorem resolve_view {rest : Slice} (hrest : rest.Literal) (hname : Shows redirects fields name)
    (h : (view redirects action (.obj root fields)).run label = .ok (built, after)) :
    Slice.resolve (.key name :: rest) action built =
        (Slice.spliced (.key name :: rest) redirects).resolve action (.obj root fields) ∨
      rest = [] ∧ Slice.resolve (.key name :: rest) action built = some .null ∧
        ∃ held target, redirects = some held ∧ Table.get? held name = some target ∧
          target.resolve action (.obj root fields) = none := by
  have hview : Slice.resolve (.key name :: rest) action built =
      (built.child? (.key name)).bind (Node.at? · rest.path) :=
    congrArg _ (funext hrest.resolveFrom_eq)
  rw [hview]
  by_cases hnone : ∀ held, redirects = some held → Table.get? held name = none
  · have hspliced : Slice.spliced (.key name :: rest) redirects = .key name :: rest := by
      cases redirects with
      | none => rfl
      | some held => simp only [Slice.spliced, hnone held rfl]
    rw [hspliced, child?_view_of_none hnone h]
    exact Or.inl (congrArg _ (funext fun node => (hrest.resolveFrom_eq node).symm))
  · have hfield := hname.resolve_right hnone
    obtain ⟨held, rfl, hredirected⟩ : ∃ held, redirects = some held ∧
        Table.get? held name ≠ none := by simpa using hnone
    obtain ⟨target, htarget⟩ := Option.ne_none_iff_exists'.mp hredirected
    rw [child?_view htarget hfield h, Slice.spliced_of_get? htarget, Option.bind_some,
      Slice.resolve_append]
    cases hfound : target.resolve action (.obj root fields) with
    | some found => exact Or.inl (hrest.resolveFrom_eq found).symm
    | none =>
        cases rest with
        | nil => exact Or.inr ⟨rfl, rfl, held, target, rfl, htarget, hfound⟩
        | cons part others =>
            -- Null has no children.
            left
            obtain ⟨hpart, -⟩ := List.forall_mem_cons.mp hrest
            obtain ⟨seg, hseg⟩ := Option.isSome_iff_exists.mp hpart
            rw [Slice.path_cons hseg]
            rfl

end Redirects

end Reducer
