/-
Writing one table over another.

Entries are written over a table one after the other, and each finds the table as the ones
before it have left it.  What comes of it can be said without following them.  The keys of the
table stay where they are, and behind them come the new ones, in the order in which they first
came: `keys_merge`.  Under a key the entry is found that came last, or else what the table had
there: `get?_merge`.

Keys and look-ups are all there is to a table of distinct keys, so the laws of writing are
shown of these two.
-/
import Reducer.Proofs.Table

namespace Reducer

/-- A list without repetitions has none to lose. -/
theorem eraseDups_of_nodup {β : Type} [BEq β] [LawfulBEq β] {items : List β} (h : items.Nodup) :
    items.eraseDups = items := by
  induction items with
  | nil => rfl
  | cons item rest ih =>
      obtain ⟨hfresh, hrest⟩ := List.nodup_cons.mp h
      have hkept : rest.filter (fun other => !other == item) = rest := by
        refine List.filter_eq_self.mpr fun other hother => ?_
        have hne : other ≠ item := fun heq => hfresh (heq ▸ hother)
        simpa using hne
      rw [List.eraseDups_cons, hkept, ih hrest]

namespace Table

variable {α : Type} {table other base patch later : Table α}

instance decidableDistinct (table : Table α) : Decidable (Distinct table) :=
  inferInstanceAs (Decidable (keys table).Nodup)

/-! ### Keys and look-ups are all there is -/

/-- Two tables with the same keys in the same order, and the same under each, are one. -/
theorem eq_of_get? (htable : Distinct table) (hkeys : keys table = keys other)
    (hget : ∀ key, get? table key = get? other key) : table = other := by
  induction table generalizing other with
  | nil => exact (List.map_eq_nil_iff.mp hkeys.symm).symm
  | cons entry rest ih =>
      obtain ⟨key, value⟩ := entry
      obtain ⟨hfresh, hrest⟩ := List.nodup_cons.mp htable
      cases other with
      | nil => cases hkeys
      | cons first others =>
          obtain ⟨bare, held⟩ := first
          obtain ⟨hname, hnames⟩ := List.cons.inj hkeys
          obtain rfl : key = bare := hname
          have hvalue := hget key
          rw [get?_cons, get?_cons, if_pos rfl, if_pos rfl] at hvalue
          cases hvalue
          have hbelow : ∀ name, get? rest name = get? others name := by
            intro name
            by_cases hkey : key = name
            · -- The first key is not found again, neither here nor there.
              subst hkey
              have hothers : key ∉ keys others := fun hmem => hfresh (hnames.symm ▸ hmem)
              rw [(get?_eq_none_iff rest key).mpr hfresh, (get?_eq_none_iff others key).mpr hothers]
            · have hname := hget name
              rwa [get?_cons, get?_cons, if_neg hkey, if_neg hkey] at hname
          rw [ih hrest hnames hbelow]

/-- What comes first is found first. -/
theorem get?_append (front back : Table α) (key : String) :
    get? (front ++ back) key = (get? front key).or (get? back key) := by
  induction front with
  | nil => rfl
  | cons entry rest ih =>
      obtain ⟨k, v⟩ := entry
      rw [List.cons_append, get?_cons, get?_cons]
      split
      · rfl
      · exact ih

theorem mem_keys_iff_has {key : String} : key ∈ keys table ↔ has table key = true := by
  rw [has, Option.isSome_iff_ne_none, ne_eq, get?_eq_none_iff, not_not]

/-! ### What is left when entries are written -/

theorem merge_cons (table : Table α) (key : String) (value : α) (rest : Table α) :
    merge table ((key, value) :: rest) = merge (set table key value) rest := rfl

theorem merge_append (table front back : Table α) :
    merge table (front ++ back) = merge (merge table front) back :=
  List.foldl_append

theorem distinct_merge (h : Distinct table) (entries : Table α) :
    Distinct (merge table entries) := by
  induction entries generalizing table with
  | nil => exact h
  | cons entry rest ih => exact ih (distinct_set h entry.1 entry.2)

theorem mem_merge {entries : Table α} {entry : String × α} (h : entry ∈ merge table entries) :
    entry ∈ table ∨ entry ∈ entries := by
  induction entries generalizing table with
  | nil => exact Or.inl h
  | cons first rest ih =>
      rcases ih h with hwritten | hlater
      · rcases mem_set hwritten with hold | rfl
        · exact Or.inl hold
        · exact Or.inr List.mem_cons_self
      · exact Or.inr (List.mem_cons_of_mem _ hlater)

/-- **The keys of the table stay in place, and new ones follow in the order they came.** -/
theorem keys_merge (table entries : Table α) :
    keys (merge table entries) =
      keys table ++ ((keys entries).filter (· ∉ keys table)).eraseDups := by
  induction entries generalizing table with
  | nil => exact (List.append_nil _).symm
  | cons entry rest ih =>
      obtain ⟨key, value⟩ := entry
      rw [merge_cons, ih, keys_set]
      have hkeys : keys ((key, value) :: rest) = key :: keys rest := rfl
      by_cases hkey : key ∈ keys table
      · rw [if_pos hkey, hkeys, List.filter_cons_of_neg (by simpa using hkey)]
      · -- The key is new: it comes behind the table, and is not counted again after that.
        have hrest : (keys rest).filter (· ∉ keys table ++ [key]) =
            ((keys rest).filter (· ∉ keys table)).filter (fun name => !name == key) := by
          rw [List.filter_filter]
          refine List.filter_congr fun name _ => ?_
          by_cases hname : name = key <;> simp [hname]
        rw [if_neg hkey, hkeys, List.filter_cons_of_pos (by simpa using hkey),
          List.eraseDups_cons, hrest, List.append_assoc, List.singleton_append]

/-- **The entry that came last is found, or else what was there before.** -/
theorem get?_merge (table entries : Table α) (key : String) :
    get? (merge table entries) key = (get? entries.reverse key).or (get? table key) := by
  induction entries generalizing table with
  | nil => rfl
  | cons entry rest ih =>
      obtain ⟨k, v⟩ := entry
      rw [merge_cons, ih, get?_set, List.reverse_cons, get?_append, Option.or_assoc, get?_cons,
        get?_nil]
      split <;> rfl

/-! ### The table of a list of entries -/

/-- The keys are listed in the order in which they first came. -/
theorem keys_ofEntries (entries : List (String × α)) :
    keys (ofEntries entries) = (keys entries).eraseDups := by
  have hall : (keys entries).filter (· ∉ keys ([] : Table α)) = keys entries :=
    List.filter_eq_self.mpr fun _ _ => by simp [keys]
  rw [ofEntries, keys_merge, hall]
  rfl

theorem get?_ofEntries (entries : List (String × α)) (key : String) :
    get? (ofEntries entries) key = get? entries.reverse key := by
  rw [ofEntries, get?_merge, get?_nil, Option.or_none]

theorem mem_keys_ofEntries {entries : List (String × α)} {key : String} :
    key ∈ keys (ofEntries entries) ↔ key ∈ keys entries := by
  rw [keys_ofEntries, List.mem_eraseDups]

/-- A key is listed once. -/
theorem count_keys_ofEntries (entries : List (String × α)) (key : String) :
    (keys (ofEntries entries)).count key = if key ∈ keys entries then 1 else 0 := by
  have hdistinct : (keys (ofEntries entries)).Nodup := distinct_merge distinct_nil entries
  rw [hdistinct.count]
  simp only [mem_keys_ofEntries]

/-! ### Writing one table over another -/

theorem keys_merge_of_distinct (base : Table α) (h : Distinct patch) :
    keys (merge base patch) = keys base ++ (keys patch).filter (· ∉ keys base) := by
  rw [keys_merge, eraseDups_of_nodup (h.filter _)]

theorem get?_merge_of_distinct (base : Table α) (h : Distinct patch) (key : String) :
    get? (merge base patch) key = (get? patch key).or (get? base key) := by
  rw [get?_merge, ← get?_of_perm h (List.reverse_perm patch).symm]

theorem mem_keys_merge (base : Table α) (h : Distinct patch) {key : String} :
    key ∈ keys (merge base patch) ↔ key ∈ keys base ∨ key ∈ keys patch := by
  rw [keys_merge_of_distinct base h, List.mem_append, List.mem_filter, decide_eq_true_eq]
  tauto

/-- **Writing one table after another is writing what the second makes of the first.** -/
theorem merge_assoc (hbase : Distinct base) (hpatch : Distinct patch) (hlater : Distinct later) :
    merge (merge base patch) later = merge base (merge patch later) := by
  have hboth := distinct_merge hpatch later
  refine eq_of_get? (distinct_merge (distinct_merge hbase patch) later) ?_ fun key => ?_
  · -- A key that comes last is new to both tables or to neither.
    have hnew : (keys later).filter (· ∉ keys (merge base patch)) =
        ((keys later).filter (· ∉ keys patch)).filter (· ∉ keys base) := by
      rw [List.filter_filter]
      refine List.filter_congr fun key _ => ?_
      simp [mem_keys_merge base hpatch, not_or]
    calc keys (merge (merge base patch) later)
        = keys base ++ (keys patch).filter (· ∉ keys base) ++
            ((keys later).filter (· ∉ keys patch)).filter (· ∉ keys base) := by
          rw [keys_merge_of_distinct _ hlater, hnew, keys_merge_of_distinct _ hpatch]
      _ = keys base ++ (keys (merge patch later)).filter (· ∉ keys base) := by
          rw [keys_merge_of_distinct _ hlater, List.filter_append, List.append_assoc]
      _ = keys (merge base (merge patch later)) := (keys_merge_of_distinct _ hboth).symm
  · rw [get?_merge_of_distinct _ hlater, get?_merge_of_distinct _ hpatch,
      get?_merge_of_distinct _ hboth, get?_merge_of_distinct _ hlater, Option.or_assoc]

/-- A table that is written over itself stays as it is. -/
theorem merge_self (h : Distinct patch) : merge patch patch = patch := by
  refine eq_of_get? (distinct_merge h patch) ?_ fun key => ?_
  · have hnone : (keys patch).filter (· ∉ keys patch) = [] :=
      List.filter_eq_nil_iff.mpr fun key hkey => by simpa using hkey
    rw [keys_merge_of_distinct _ h, hnone, List.append_nil]
  · rw [get?_merge_of_distinct _ h, Option.or_self]

/-- Of a table that is written twice the second time changes nothing. -/
theorem merge_merge_self (hbase : Distinct base) (h : Distinct patch) :
    merge (merge base patch) patch = merge base patch := by
  rw [merge_assoc hbase h h, merge_self h]

end Table

end Reducer
