/-
Tables that remember the order in which their keys came.

A table is a list of keyed entries.  Writing a key that is already there changes
its value and leaves it in its place; a new key goes to the end; erasing keeps the
order of the rest.  Every table the library builds starts empty and grows by
`set`, so its keys are distinct (`Distinct`, kept by `distinct_set`), and then a
table is nothing but its order of keys and its look-up function.

The mapping nodes of a state tree, the fields of a JSON object and the name tables
of a registry are all of this one shape.
-/

namespace Reducer

/-- Keyed entries in the order their keys first came. -/
abbrev Table (α : Type) := List (String × α)

namespace Table

variable {α β : Type}

/-- The value at `key`: the first one, though no table built here holds two. -/
def get? : Table α → String → Option α
  | [], _ => none
  | (k, v) :: rest, key => if k = key then some v else get? rest key

/-- Whether the table has an entry at `key`. -/
def has (table : Table α) (key : String) : Bool :=
  (get? table key).isSome

/-- Writes `value` at `key`: in place if the key is there, at the end if not. -/
def set : Table α → String → α → Table α
  | [], key, value => [(key, value)]
  | (k, v) :: rest, key, value =>
      if k = key then (k, value) :: rest else (k, v) :: set rest key value

/-- The keys, in order. -/
def keys (table : Table α) : List String :=
  table.map (·.1)

/-- The table that results from writing `entries` one after the other. -/
def merge (table entries : Table α) : Table α :=
  entries.foldl (fun acc entry => set acc entry.1 entry.2) table

/-- The table of a list of entries: a repeated key keeps its place and takes the last value. -/
def ofEntries (entries : List (String × α)) : Table α :=
  merge [] entries

/-- Changes every value and no key. -/
def mapValues (f : α → β) (table : Table α) : Table β :=
  table.map fun entry => (entry.1, f entry.2)

/-- Writes what `f` makes of the value now at `key`, if there is one. -/
def update (table : Table α) (key : String) (f : Option α → α) : Table α :=
  set table key (f (get? table key))

/-- Equal tables up to the order of their entries: as many, and each found in the other. -/
def eqvBy (eqv : α → β → Bool) (a : Table α) (b : Table β) : Bool :=
  a.length == b.length &&
    a.all fun entry => match get? b entry.1 with
      | some value => eqv entry.2 value
      | none => false

/-- No key occurs twice. -/
def Distinct (table : Table α) : Prop :=
  (keys table).Nodup

/-! ### What a look-up sees -/

@[simp] theorem get?_nil (key : String) : get? ([] : Table α) key = none := rfl

theorem get?_cons (k : String) (v : α) (rest : Table α) (key : String) :
    get? ((k, v) :: rest) key = if k = key then some v else get? rest key := rfl

/-- A write is seen at its own key and nowhere else. -/
theorem get?_set (table : Table α) (key : String) (value : α) (other : String) :
    get? (set table key value) other = if key = other then some value else get? table other := by
  induction table with
  | nil => simp [set, get?]
  | cons entry rest ih =>
      obtain ⟨k, v⟩ := entry
      by_cases hk : k = key
      · subst hk
        by_cases ho : k = other <;> simp [set, get?, ho]
      · by_cases ho : k = other
        · subst ho
          simp [set, get?, hk, Ne.symm hk]
        · simp [set, get?, hk, ho, ih]

theorem get?_eq_none_iff (table : Table α) (key : String) :
    get? table key = none ↔ key ∉ keys table := by
  induction table with
  | nil => simp [keys]
  | cons entry rest ih =>
      obtain ⟨k, v⟩ := entry
      by_cases hk : k = key
      · simp [get?, keys, hk]
      · simpa [get?, keys, hk, Ne.symm hk] using ih

/-! ### What a write does to the order -/

/-- A write keeps the keys in order, and adds its own at the end if it was missing. -/
theorem keys_set (table : Table α) (key : String) (value : α) :
    keys (set table key value) = if key ∈ keys table then keys table else keys table ++ [key] := by
  induction table with
  | nil => simp [set, keys]
  | cons entry rest ih =>
      obtain ⟨k, v⟩ := entry
      by_cases hk : k = key
      · simp [set, keys, hk]
      · have hk' : ¬key = k := Ne.symm hk
        simp only [keys] at ih
        by_cases hm : key ∈ rest.map (·.1) <;> simp_all [set, keys]

theorem distinct_nil : Distinct ([] : Table α) := by simp [Distinct, keys]

theorem distinct_set {table : Table α} (h : Distinct table) (key : String) (value : α) :
    Distinct (set table key value) := by
  unfold Distinct at *
  rw [keys_set]
  split
  · exact h
  · rename_i hm
    rw [List.nodup_append]
    refine ⟨h, by simp, ?_⟩
    intro a ha b hb
    simp only [List.mem_singleton] at hb
    subst hb
    intro hab
    exact hm (hab ▸ ha)

end Table

end Reducer
