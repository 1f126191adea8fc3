/-
Tables as look-up functions.

A table whose keys are distinct is its order of keys and its look-up function.  What is
shown here is the traffic between the two: an entry is found by its key, what is found is
an entry, and `put`, which writes an entry in place or leaves it out, is seen at its own
key and nowhere else.
-/
import Mathlib.Data.List.Perm.Subperm
import Reducer.Table

namespace Reducer

namespace Table

variable {α β : Type}

theorem mem_of_get? {table : Table α} {key : String} {value : α}
    (h : get? table key = some value) : (key, value) ∈ table := by
  induction table with
  | nil => cases h
  | cons entry rest ih =>
      obtain ⟨k, v⟩ := entry
      rw [get?_cons] at h
      by_cases hk : k = key
      · rw [if_pos hk] at h
        cases h
        exact hk ▸ List.mem_cons_self
      · rw [if_neg hk] at h
        exact List.mem_cons_of_mem _ (ih h)

theorem get?_of_mem {table : Table α} (hdistinct : Distinct table) {key : String} {value : α}
    (h : (key, value) ∈ table) : get? table key = some value := by
  induction table with
  | nil => cases h
  | cons entry rest ih =>
      obtain ⟨k, v⟩ := entry
      obtain ⟨hfresh, hrest⟩ := List.nodup_cons.mp hdistinct
      rw [get?_cons]
      rcases List.mem_cons.mp h with heq | hlater
      · cases heq
        rw [if_pos rfl]
      · have hk : k ≠ key := by
          rintro rfl
          exact hfresh (List.mem_map.mpr ⟨(k, value), hlater, rfl⟩)
        rw [if_neg hk]
        exact ih hrest hlater

theorem mem_set {table : Table α} {key : String} {value : α} {entry : String × α}
    (h : entry ∈ set table key value) : entry ∈ table ∨ entry = (key, value) := by
  induction table with
  | nil => exact Or.inr (List.mem_singleton.mp h)
  | cons first rest ih =>
      obtain ⟨k, v⟩ := first
      rw [set] at h
      split at h
      · rename_i hk
        rcases List.mem_cons.mp h with rfl | hrest
        · exact Or.inr (by rw [hk])
        · exact Or.inl (List.mem_cons_of_mem _ hrest)
      · rcases List.mem_cons.mp h with rfl | hrest
        · exact Or.inl List.mem_cons_self
        · exact (ih hrest).imp_left (List.mem_cons_of_mem _)

theorem exists_of_mem_keys {table : Table α} {key : String} (h : key ∈ keys table) :
    ∃ value, get? table key = some value := by
  cases hget : get? table key with
  | none => exact absurd h ((get?_eq_none_iff table key).mp hget)
  | some value => exact ⟨value, rfl⟩

/-- As many keys, and all of the one among those of the other, leave no key over. -/
theorem perm_keys {table : Table α} {other : Table β} (htable : Distinct table)
    (hlength : table.length = other.length)
    (h : ∀ key value, get? table key = some value → ∃ made, get? other key = some made) :
    (keys table).Perm (keys other) := by
  have hsubset : keys table ⊆ keys other := by
    intro key hkey
    obtain ⟨value, hvalue⟩ := exists_of_mem_keys hkey
    obtain ⟨made, hmade⟩ := h key value hvalue
    exact List.mem_map.mpr ⟨_, mem_of_get? hmade, rfl⟩
  exact (List.subperm_of_subset htable hsubset).perm_of_length_le (by simp [keys, hlength])

/-- The order of entries does not matter to a look-up. -/
theorem get?_of_perm {table other : Table α} (htable : Distinct table) (h : table.Perm other)
    (key : String) : get? table key = get? other key := by
  cases hget : get? other key with
  | some value => exact get?_of_mem htable (h.mem_iff.mpr (mem_of_get? hget))
  | none =>
      rw [get?_eq_none_iff] at hget ⊢
      exact fun hkey => hget ((h.map _).mem_iff.mp hkey)

/-! ### Writing and leaving out -/

/-- The table with the entry of a key written in place, or left out. -/
def put (table : Table α) (key : String) : Option α → Table α
  | some value => set table key value
  | none => table.filter fun entry => entry.1 ≠ key

theorem put_cons_of_ne {k key : String} (h : k ≠ key) (v : α) (rest : Table α)
    (outcome : Option α) : put ((k, v) :: rest) key outcome = (k, v) :: put rest key outcome := by
  cases outcome with
  | none => rw [put, List.filter_cons_of_pos (by simpa using h), put]
  | some value => rw [put, set, if_neg h, put]

theorem put_cons_none {key : String} {rest : Table α} (h : key ∉ keys rest) (v : α) :
    put ((key, v) :: rest) key none = rest := by
  rw [put, List.filter_cons_of_neg (by simp), List.filter_eq_self]
  intro entry hentry
  have hne : entry.1 ≠ key := by
    rintro rfl
    exact h (List.mem_map.mpr ⟨entry, hentry, rfl⟩)
  simpa using hne

theorem put_cons_some (key : String) (v value : α) (rest : Table α) :
    put ((key, v) :: rest) key (some value) = (key, value) :: rest := by
  rw [put, set, if_pos rfl]

theorem get?_filter (table : Table α) (key other : String) :
    get? (table.filter fun entry => entry.1 ≠ key) other =
      if key = other then none else get? table other := by
  induction table with
  | nil => simp
  | cons entry rest ih =>
      obtain ⟨k, v⟩ := entry
      by_cases hk : k = key
      · subst hk
        rw [List.filter_cons_of_neg (by simp), ih, get?_cons]
        split <;> rfl
      · rw [List.filter_cons_of_pos (by simpa using hk), get?_cons, get?_cons, ih]
        by_cases ho : k = other
        · rw [if_pos ho, if_pos ho, if_neg fun h => hk (ho.trans h.symm)]
        · rw [if_neg ho, if_neg ho]

theorem get?_put (table : Table α) (key : String) (outcome : Option α) (other : String) :
    get? (put table key outcome) other = if key = other then outcome else get? table other := by
  cases outcome with
  | none => exact get?_filter table key other
  | some value => exact get?_set table key value other

theorem distinct_put {table : Table α} (h : Distinct table) (key : String) (outcome : Option α) :
    Distinct (put table key outcome) := by
  cases outcome with
  | none => exact h.sublist (List.filter_sublist.map _)
  | some value => exact distinct_set h key value

theorem mem_put {table : Table α} {key : String} {outcome : Option α} {entry : String × α}
    (h : entry ∈ put table key outcome) : entry ∈ table ∨ outcome = some entry.2 := by
  cases outcome with
  | none => exact Or.inl ((List.mem_filter.mp h).1)
  | some value =>
      rcases mem_set h with hmem | rfl
      · exact Or.inl hmem
      · exact Or.inr rfl

theorem mapValues_put (f : α → β) (table : Table α) (key : String) (outcome : Option α) :
    mapValues f (put table key outcome) = put (mapValues f table) key (outcome.map f) := by
  induction table with
  | nil => cases outcome <;> rfl
  | cons entry rest ih =>
      obtain ⟨k, v⟩ := entry
      cases outcome with
      | none =>
          by_cases hk : k = key
          · simpa [put, mapValues, hk] using ih
          · simpa [put, mapValues, hk] using ih
      | some value =>
          by_cases hk : k = key
          · simp [put, set, mapValues, hk]
          · simpa [put, set, mapValues, hk] using ih

/-- A look-up in a table whose values are changed, each by its key. -/
theorem get?_map (f : String → α → β) (table : Table α) (key : String) :
    get? (table.map fun entry => (entry.1, f entry.1 entry.2)) key =
      (get? table key).map (f key) := by
  induction table with
  | nil => rfl
  | cons entry rest ih =>
      obtain ⟨k, v⟩ := entry
      rw [List.map_cons, get?_cons, get?_cons]
      split
      · rename_i hk
        rw [hk]
        rfl
      · exact ih

theorem get?_mapValues (f : α → β) (table : Table α) (key : String) :
    get? (mapValues f table) key = (get? table key).map f :=
  get?_map (fun _ => f) table key

/-- Of two values written at one key the first is lost. -/
theorem set_set (table : Table α) (key : String) (value later : α) :
    set (set table key value) key later = set table key later := by
  induction table with
  | nil => simp [set]
  | cons entry rest ih =>
      obtain ⟨k, v⟩ := entry
      by_cases hk : k = key
      · simp [set, hk]
      · simp [set, hk, ih]

/-- Writing what is there changes nothing. -/
theorem set_of_get? {table : Table α} {key : String} {value : α}
    (h : get? table key = some value) : set table key value = table := by
  induction table with
  | nil => cases h
  | cons entry rest ih =>
      obtain ⟨k, v⟩ := entry
      rw [get?_cons] at h
      rw [set]
      by_cases hk : k = key
      · rw [if_pos hk] at h
        cases h
        rw [if_pos hk]
      · rw [if_neg hk] at h
        rw [if_neg hk, ih h]

end Table

end Reducer
