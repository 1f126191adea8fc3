/-
Reports that can be read back.

The text of a report puts a dot between the names of a place and a semicolon behind the place,
and it escapes neither; a key and an index are written in one way.  So a text says nothing
definite in general.  What is needed to read it is that no key holds a separator and that no
key looks like an index, and it is enough that this is so in the two trees, since all names in
a report come from there.

An empty key does no harm.  The root, the one place without any name, would be written just like
the place of an empty key below it; but the root is never reported.
-/
import Mathlib.Data.List.Basic
import Reducer.Proofs.Changes

namespace Reducer

/-! ### Reading -/

/-- The name that was written: an index if that is how an index below `limit` is written. -/
def Seg.ofBare (limit : Nat) (text : String) : Seg :=
  let position := Nat.ofDigitChars 10 text.toList 0
  if position < limit ∧ toString position = text then index position else key text

/-- The place that was written, name by name. -/
def Path.ofDotted (limit : Nat) (text : String) : Path :=
  (text.toList.splitOn '.').map fun name => Seg.ofBare limit (String.ofList name)

/-- The places of a report, each with a semicolon behind it. -/
def readChanges (limit : Nat) (text : String) : List Path :=
  (text.toList.splitOn ';').dropLast.map fun place => Path.ofDotted limit (String.ofList place)

/-- The name can be read back where indices are below `limit`. -/
def Seg.Legible (limit : Nat) : Seg → Prop
  | key name =>
      '.' ∉ name.toList ∧ ';' ∉ name.toList ∧ ∀ position < limit, name ≠ toString position
  | index position => position < limit

instance decidableLegible (limit : Nat) : (seg : Seg) → Decidable (seg.Legible limit)
  | .key _ => inferInstanceAs (Decidable (_ ∧ _ ∧ _))
  | .index _ => inferInstanceAs (Decidable (_ < _))

/-- Every key and every index in the tree can be read back. -/
def Node.Legible (limit : Nat) (node : Node) : Prop :=
  ∀ path value, node.at? path = some value → ∀ seg ∈ value.names, seg.Legible limit

variable {limit : Nat}

/-! ### Names -/

section Names

variable {seg : Seg}

theorem ofDigitChars_toString (position : Nat) :
    Nat.ofDigitChars 10 (toString position).toList 0 = position := by
  rw [Nat.toString_eq_ofList_toDigits, String.toList_ofList, Nat.ofDigitChars_ten_toDigits]

theorem Seg.ofBare_bare (h : seg.Legible limit) : ofBare limit seg.bare = seg := by
  cases seg with
  | key name =>
      obtain ⟨-, -, hindex⟩ := h
      exact if_neg fun hwritten => hindex _ hwritten.1 hwritten.2.symm
  | index position =>
      rw [bare, ofBare, ofDigitChars_toString]
      exact if_pos ⟨h, rfl⟩

/-- The text of a number has digits only. -/
theorem isDigit_of_mem_toString {position : Nat} {char : Char}
    (h : char ∈ (toString position).toList) : char.isDigit = true := by
  rw [Nat.toString_eq_ofList_toDigits, String.toList_ofList] at h
  exact Nat.isDigit_of_mem_toDigits (by omega) (Nat.le_refl 10) h

theorem Seg.dot_not_mem_bare (h : seg.Legible limit) : '.' ∉ seg.bare.toList := by
  cases seg with
  | key name => exact h.1
  | index position => exact fun hmem => absurd (isDigit_of_mem_toString hmem) (by decide)

theorem Seg.semicolon_not_mem_bare (h : seg.Legible limit) : ';' ∉ seg.bare.toList := by
  cases seg with
  | key name => exact h.2.1
  | index position => exact fun hmem => absurd (isDigit_of_mem_toString hmem) (by decide)

end Names

/-! ### Places -/

/-- A joined text holds the separator, and what stands in one of the parts. -/
theorem mem_of_mem_intercalate {separator char : Char} {parts : List (List Char)}
    (h : char ∈ [separator].intercalate parts) :
    char = separator ∨ ∃ part ∈ parts, char ∈ part := by
  induction parts with
  | nil => simp at h
  | cons first rest ih =>
      cases rest with
      | nil =>
          rw [List.intercalate_singleton] at h
          exact Or.inr ⟨first, List.mem_singleton_self _, h⟩
      | cons next rest =>
          rw [List.intercalate_cons_cons, List.mem_append, List.mem_append,
            List.mem_singleton] at h
          rcases h with (hfirst | hseparator) | hrest
          · exact Or.inr ⟨first, List.mem_cons_self, hfirst⟩
          · exact Or.inl hseparator
          · exact (ih hrest).imp_right fun ⟨part, hpart, hchar⟩ =>
              ⟨part, List.mem_cons_of_mem _ hpart, hchar⟩

namespace Path

variable {path : Path}

theorem toList_dotted (path : Path) :
    path.dotted.toList = ['.'].intercalate (path.map fun seg => seg.bare.toList) := by
  rw [dotted, String.toList_intercalate, List.map_map]
  rfl

theorem ofDotted_dotted (hpath : path ≠ []) (h : ∀ seg ∈ path, seg.Legible limit) :
    ofDotted limit path.dotted = path := by
  have hnames : path.dotted.toList.splitOn '.' = path.map fun seg => seg.bare.toList := by
    rw [toList_dotted]
    refine List.splitOn_intercalate '.' ?_ (by simpa using hpath)
    simpa using fun seg hseg => Seg.dot_not_mem_bare (h seg hseg)
  rw [ofDotted, hnames, List.map_map]
  refine (List.map_congr_left fun seg hseg => ?_).trans (List.map_id path)
  rw [Function.comp_apply, String.ofList_toList, Seg.ofBare_bare (h seg hseg), id]

theorem semicolon_not_mem_dotted (h : ∀ seg ∈ path, seg.Legible limit) :
    ';' ∉ path.dotted.toList := by
  intro hmem
  rw [toList_dotted] at hmem
  rcases mem_of_mem_intercalate hmem with hdot | ⟨part, hpart, hchar⟩
  · exact absurd hdot (by decide)
  · obtain ⟨seg, hseg, rfl⟩ := List.mem_map.mp hpart
    exact Seg.semicolon_not_mem_bare (h seg hseg) hchar

end Path

/-! ### Reports -/

theorem splitOn_changeText {paths : List Path} (h : ∀ path ∈ paths, ';' ∉ path.dotted.toList) :
    (changeText paths).toList.splitOn ';' = paths.map (fun path => path.dotted.toList) ++ [[]] := by
  induction paths with
  | nil => rfl
  | cons path rest ih =>
      obtain ⟨hfirst, hrest⟩ := List.forall_mem_cons.mp h
      have htext : (changeText (path :: rest)).toList =
          path.dotted.toList ++ ';' :: (changeText rest).toList := by
        simp [changeText, String.toList_join]
      rw [htext, List.splitOn_append_cons_self_of_not_mem hfirst, ih hrest, List.map_cons,
        List.cons_append]

/-- **A report of places that can be read is read back as it was.** -/
theorem readChanges_changeText {paths : List Path}
    (h : ∀ path ∈ paths, path ≠ [] ∧ ∀ seg ∈ path, seg.Legible limit) :
    readChanges limit (changeText paths) = paths := by
  have hsplit := splitOn_changeText fun path hpath => Path.semicolon_not_mem_dotted (h path hpath).2
  rw [readChanges, hsplit, List.dropLast_concat, List.map_map]
  refine (List.map_congr_left fun path hpath => ?_).trans (List.map_id paths)
  obtain ⟨hne, hlegible⟩ := h path hpath
  rw [Function.comp_apply, String.ofList_toList, Path.ofDotted_dotted hne hlegible, id]

namespace Node

theorem Legible.name {node : Node} {seg : Seg} (h : node.Legible limit)
    (hchild : (node.child? seg).isSome) : seg.Legible limit :=
  h [] node rfl seg (mem_names.mpr hchild)

theorem Legible.child? {node child : Node} {seg : Seg} (h : node.Legible limit)
    (hchild : node.child? seg = some child) : child.Legible limit := by
  intro path value hvalue
  refine h (seg :: path) value ?_
  rw [at?, hchild]
  exact hvalue

/-- A tree can be read back if the names of its children can, and the children. -/
theorem legible_of_children {node : Node} (hnames : ∀ seg ∈ node.names, seg.Legible limit)
    (hchildren : ∀ child ∈ node.children, child.Legible limit) : node.Legible limit := by
  intro path value hvalue seg hseg
  cases path with
  | nil =>
      cases hvalue
      exact hnames seg hseg
  | cons first rest =>
      rw [at?, Option.bind_eq_some_iff] at hvalue
      obtain ⟨child, hchild, hvalue⟩ := hvalue
      exact hchildren child (mem_children_of_child? hchild) rest value hvalue seg hseg

/-- All names in a report are names in one of the trees, and a place has one at least. -/
theorem legible_of_mem_changes {place : Path} :
    ∀ {old new : Node}, new.Distinct → old.Legible limit → new.Legible limit →
      place ∈ old.changes new → place ≠ [] ∧ ∀ seg ∈ place, seg.Legible limit := by
  induction place with
  | nil =>
      intro old new hnew _ _ hplace
      exact absurd hplace (nil_not_mem_changes hnew)
  | cons seg rest ih =>
      intro old new hnew hbefore hafter hplace
      obtain ⟨_, _, heq, -, hchanged, hrest⟩ := (mem_changes hnew).mp hplace
      cases heq
      have hseg : seg.Legible limit := by
        rcases mem_allNames.mp (mem_allNames_of_changed hchanged) with hold | hadded
        · exact hbefore.name hold
        · exact hafter.name hadded
      refine ⟨List.cons_ne_nil _ _, List.forall_mem_cons.mpr ⟨hseg, ?_⟩⟩
      rcases hrest with rfl | ⟨before, after, hold, hchild, hrest⟩
      · exact List.forall_mem_nil _
      · exact (ih (hnew.child? seg after hchild) (hbefore.child? hold) (hafter.child? hchild)
          hrest).2

/--
**The text of a report tells which places it lists.**  Take trees in which no key holds a
separator or is the decimal text of an index, indices being below any limit that the arrays
keep to.  Reading the text of their report, place by place and name by name, gives the very
list of places again; so two pairs of such trees whose reports have one text have one report.
-/
theorem changes_of_changeText {old new : Node} (hnew : new.Distinct)
    (holdNames : old.Legible limit) (hnewNames : new.Legible limit) :
    readChanges limit (changeText (old.changes new)) = old.changes new ∧
    ∀ before after : Node, after.Distinct → before.Legible limit → after.Legible limit →
      changeText (before.changes after) = changeText (old.changes new) →
        before.changes after = old.changes new := by
  have hread : ∀ {before after : Node}, after.Distinct → before.Legible limit →
      after.Legible limit →
        readChanges limit (changeText (before.changes after)) = before.changes after :=
    fun hafter hbefore hlater => readChanges_changeText fun _ hplace =>
      legible_of_mem_changes hafter hbefore hlater hplace
  refine ⟨hread hnew holdNames hnewNames, ?_⟩
  intro before after hafter hbefore hlater htext
  rw [← hread hafter hbefore hlater, htext, hread hnew holdNames hnewNames]

/-- An object with an empty key inside an empty key, and a list; one value at each end. -/
def ends (label : Label) (value : Node) : Node :=
  .obj label [("", .obj (label + 1) [("", value)]), ("01", .arr (label + 2) [.null, value])]

theorem legible_ends (label : Label) (value : Bool) : (ends label (.bool value)).Legible 2 := by
  have hkeys : ∀ seg ∈ [Seg.key "", .key "01"], seg.Legible 2 := by decide
  have hindices : ∀ seg ∈ [Seg.index 0, .index 1], seg.Legible 2 := by decide
  have hvalue : (Node.bool value).Legible 2 :=
    legible_of_children (List.forall_mem_nil _) (List.forall_mem_nil _)
  have hnull : Node.null.Legible 2 :=
    legible_of_children (List.forall_mem_nil _) (List.forall_mem_nil _)
  refine legible_of_children hkeys (List.forall_mem_cons.mpr ⟨?_, List.forall_mem_singleton.mpr ?_⟩)
  · refine legible_of_children (List.forall_mem_singleton.mpr (hkeys _ List.mem_cons_self)) ?_
    exact List.forall_mem_singleton.mpr hvalue
  · refine legible_of_children hindices (List.forall_mem_cons.mpr ⟨hnull, ?_⟩)
    exact List.forall_mem_singleton.mpr hvalue

/-- An empty key, one that is written like no index, and an index: each name is read back. -/
theorem changes_of_changeText_ends :
    readChanges 2 ";.;01;01.1;" =
      [[.key ""], [.key "", .key ""], [.key "01"], [.key "01", .index 1]] ∧
    (ends 3 (.bool true)).changes (ends 0 (.bool false)) =
      (ends 0 (.bool false)).changes (ends 3 (.bool true)) := by
  have hdistinct : ∀ label value, (ends label (.bool value)).Distinct := by
    simp [ends, Node.Distinct, Node.DistinctFields, DistinctItems, Table.Distinct, Table.keys]
  have hshut := legible_ends 0 false
  have hopen := legible_ends 3 true
  obtain ⟨hread, hsame⟩ := changes_of_changeText (hdistinct 3 true) hshut hopen
  exact ⟨hread, hsame _ _ (hdistinct 0 false) hopen hshut rfl⟩

end Node

end Reducer
