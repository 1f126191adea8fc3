/-
What a run of work that makes nodes looks like.

Work is run from a label on and ends in a fault, or in a value and the label that
comes next.  Two facts are needed of every run: a run of one piece of work after
another is a run of each, and labels are only ever used up.  Of two runs it may be said
that they end alike, in related values or in one fault: `Agree`, which is handed on by what
runs after.
-/
import Reducer.Build

namespace Reducer.Build

variable {α β : Type}

/-! ### One piece of work after another -/

@[simp] theorem run_pure (value : α) (label : Label) :
    (pure value : Build α).run label = .ok (value, label) := rfl

@[simp] theorem run_throw (fault : Fault) (label : Label) :
    (throw fault : Build α).run label = .error fault := rfl

theorem run_throw_error {thrown fault : Fault} {label : Label} :
    (throw thrown : Build α).run label = .error fault ↔ fault = thrown := by
  rw [run_throw, Except.error.injEq, eq_comm]

@[simp] theorem run_fresh (label : Label) : fresh.run label = .ok (label, label + 1) := rfl

@[simp] theorem run_draft (d : Draft) (label : Label) :
    (draft d).run label = .ok (d.build label) := rfl

theorem run_bind (work : Build α) (next : α → Build β) (label : Label) :
    (work >>= next).run label =
      match work.run label with
      | .ok (value, after) => (next value).run after
      | .error fault => .error fault := by
  rw [StateT.run_bind]
  cases work.run label <;> rfl

/-- A run that succeeds is a run of the first piece and then one of the second. -/
theorem run_bind_ok {work : Build α} {next : α → Build β} {label after : Label} {value : β} :
    (work >>= next).run label = .ok (value, after) ↔
      ∃ first between, work.run label = .ok (first, between) ∧
        (next first).run between = .ok (value, after) := by
  rw [run_bind]
  constructor
  · intro h
    cases hwork : work.run label with
    | error fault => rw [hwork] at h; simp at h
    | ok pair =>
        obtain ⟨first, between⟩ := pair
        rw [hwork] at h
        exact ⟨first, between, rfl, h⟩
  · rintro ⟨first, between, hwork, hnext⟩
    rw [hwork]
    exact hnext

/-- A run that fails has failed in the first piece, or in the second after the first. -/
theorem run_bind_error {work : Build α} {next : α → Build β} {label : Label} {fault : Fault} :
    (work >>= next).run label = .error fault ↔
      work.run label = .error fault ∨ ∃ first between, work.run label = .ok (first, between) ∧
        (next first).run between = .error fault := by
  rw [run_bind]
  cases work.run label with
  | error other => simp
  | ok pair =>
      obtain ⟨first, between⟩ := pair
      simp [and_assoc]

theorem run_map_ok {f : α → β} {work : Build α} {label after : Label} {value : β} :
    (f <$> work).run label = .ok (value, after) ↔
      ∃ first, work.run label = .ok (first, after) ∧ f first = value := by
  rw [map_eq_pure_bind, run_bind_ok]
  constructor
  · rintro ⟨first, between, hwork, hvalue⟩
    cases hvalue
    exact ⟨first, hwork, rfl⟩
  · rintro ⟨first, hwork, rfl⟩
    exact ⟨first, after, hwork, rfl⟩

/-- Work that is the same from every label on is the same work. -/
theorem ext_run {work other : Build α} (h : ∀ label, work.run label = other.run label) :
    work = other :=
  funext h

/-! ### Results, whatever the fault -/

/-- What a run ends in, if it succeeds. -/
def result (work : Build α) (label : Label) : Option (α × Label) :=
  (work.run label).toOption

@[simp] theorem result_draft (d : Draft) (label : Label) :
    result (draft d) label = some (d.build label) := rfl

@[simp] theorem result_arr (items : List Node) (label : Label) :
    result (arr items) label = some (.arr label items, label + 1) := rfl

@[simp] theorem result_obj (fields : Table Node) (label : Label) :
    result (obj fields) label = some (.obj label fields, label + 1) := rfl

theorem result_bind (work : Build α) (next : α → Build β) (label : Label) :
    result (work >>= next) label =
      (result work label).bind fun first => result (next first.1) first.2 := by
  unfold result
  rw [run_bind]
  cases work.run label <;> rfl

theorem result_map (f : α → β) (work : Build α) (label : Label) :
    result (f <$> work) label = (result work label).map fun first => (f first.1, first.2) := by
  rw [map_eq_pure_bind, result_bind]
  cases result work label <;> rfl

theorem result_eq_some {work : Build α} {label after : Label} {value : α} :
    result work label = some (value, after) ↔ work.run label = .ok (value, after) := by
  unfold result
  cases work.run label <;> simp [Except.toOption]

/-- Related results stay related under what is done with them. -/
theorem rel_bind {γ δ ε ζ : Type} {P : γ → δ → Prop} {Q : ε → ζ → Prop} {x : Option γ}
    {y : Option δ} {f : γ → Option ε} {g : δ → Option ζ} (h : Option.Rel P x y)
    (hnext : ∀ {a b}, x = some a → y = some b → P a b → Option.Rel Q (f a) (g b)) :
    Option.Rel Q (x.bind f) (y.bind g) := by
  cases h with
  | none => exact .none
  | some hab => exact hnext rfl rfl hab

theorem rel_map {γ δ ε ζ : Type} {P : γ → δ → Prop} {Q : ε → ζ → Prop} {x : Option γ}
    {y : Option δ} {f : γ → ε} {g : δ → ζ} (h : Option.Rel P x y)
    (hmap : ∀ {a b}, P a b → Q (f a) (g b)) : Option.Rel Q (x.map f) (y.map g) := by
  cases h with
  | none => exact .none
  | some hab => exact .some (hmap hab)

theorem rel_mono {γ δ : Type} {P Q : γ → δ → Prop} {x : Option γ} {y : Option δ}
    (h : Option.Rel P x y) (himp : ∀ {a b}, x = some a → y = some b → P a b → Q a b) :
    Option.Rel Q x y := by
  cases h with
  | none => exact .none
  | some hab => exact .some (himp rfl rfl hab)

theorem rel_symm {γ δ : Type} {P : γ → δ → Prop} {Q : δ → γ → Prop} {x : Option γ} {y : Option δ}
    (h : Option.Rel P x y) (hsymm : ∀ {a b}, x = some a → y = some b → P a b → Q b a) :
    Option.Rel Q y x := by
  cases h with
  | none => exact .none
  | some hab => exact .some (hsymm rfl rfl hab)

theorem rel_comp {γ δ ε : Type} {P : γ → δ → Prop} {Q : δ → ε → Prop} {S : γ → ε → Prop}
    {x : Option γ} {y : Option δ} {z : Option ε} (h : Option.Rel P x y) (hnext : Option.Rel Q y z)
    (hcomp : ∀ {a b c}, x = some a → y = some b → z = some c → P a b → Q b c → S a c) :
    Option.Rel S x z := by
  cases h with
  | none =>
      cases hnext
      exact .none
  | some hab =>
      cases hnext with
      | some hbc => exact .some (hcomp rfl rfl rfl hab hbc)

theorem map_eq_of_rel {γ δ ε : Type} {f : γ → ε} {g : δ → ε} {x : Option γ} {y : Option δ}
    (h : Option.Rel (fun a b => f a = g b) x y) : x.map f = y.map g := by
  cases h with
  | none => rfl
  | some hab => exact congrArg some hab

/-! ### Runs that end alike -/

section Agree

variable {γ δ : Type} {P : α → β → Prop} {Q : γ → δ → Prop}

/-- Two runs that end in related values, or in one fault. -/
inductive Ends (P : α → β → Prop) :
    Except Fault (α × Label) → Except Fault (β × Label) → Prop
  | error {fault} : Ends P (.error fault) (.error fault)
  | ok {value other next later} (h : P value other) :
      Ends P (.ok (value, next)) (.ok (other, later))

/-- Work that ends alike, whatever labels are next. -/
def Agree (P : α → β → Prop) (work : Build α) (other : Build β) : Prop :=
  ∀ next later, Ends P (work.run next) (other.run later)

theorem agree_pure {value : α} {other : β} (h : P value other) :
    Agree P (pure value) (pure other) :=
  fun _ _ => .ok h

theorem agree_throw (fault : Fault) : Agree P (throw fault) (throw fault) :=
  fun _ _ => .error

/-- Labels are the one thing that need not be related. -/
theorem agree_fresh : Agree (fun _ _ => True) fresh fresh :=
  fun _ _ => .ok trivial

/-- **Work after work that agrees agrees.** -/
theorem Agree.bind {work : Build α} {other : Build β} {f : α → Build γ} {g : β → Build δ}
    (h : Agree P work other) (hafter : ∀ {a b}, P a b → Agree Q (f a) (g b)) :
    Agree Q (work >>= f) (other >>= g) := by
  intro next later
  rw [run_bind, run_bind]
  have hends := h next later
  generalize work.run next = one at hends ⊢
  generalize other.run later = two at hends ⊢
  cases hends with
  | error => exact .error
  | ok hvalue => exact hafter hvalue _ _

theorem Agree.map {f : α → γ} {g : β → δ} {work : Build α} {other : Build β}
    (h : Agree P work other) (hmap : ∀ {a b}, P a b → Q (f a) (g b)) :
    Agree Q (f <$> work) (g <$> other) := by
  rw [map_eq_pure_bind, map_eq_pure_bind]
  exact h.bind fun hvalue => agree_pure (hmap hvalue)

/-- What is lost when the faults are forgotten. -/
theorem Agree.rel {work : Build α} {other : Build β} (h : Agree P work other)
    (next later : Label) :
    Option.Rel (fun one two => P one.1 two.1) (result work next) (result other later) := by
  have hends := h next later
  unfold result
  generalize work.run next = one at hends ⊢
  generalize other.run later = two at hends ⊢
  cases hends with
  | error => exact .none
  | ok hvalue => exact .some hvalue

end Agree

/-! ### Labels are only used up -/

/-- The label that comes next is never one that came before. -/
def Rises (work : Build α) : Prop :=
  ∀ label value after, work.run label = .ok (value, after) → label ≤ after

theorem rises_pure (value : α) : Rises (pure value : Build α) := by
  intro label other after h
  rw [run_pure] at h
  cases h
  exact Nat.le_refl _

theorem rises_throw (fault : Fault) : Rises (throw fault : Build α) := by
  intro label value after h
  rw [run_throw] at h
  cases h

theorem rises_fresh : Rises fresh := by
  intro label value after h
  rw [run_fresh] at h
  cases h
  exact Nat.le_succ _

theorem rises_bind {work : Build α} {next : α → Build β} (hwork : Rises work)
    (hnext : ∀ value, Rises (next value)) : Rises (work >>= next) := by
  intro label value after h
  obtain ⟨first, between, hfirst, hrest⟩ := run_bind_ok.mp h
  exact Nat.le_trans (hwork _ _ _ hfirst) (hnext first _ _ _ hrest)

end Reducer.Build
