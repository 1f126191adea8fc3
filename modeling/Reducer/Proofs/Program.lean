/-
What a program does to what it is run against.

A program can do nothing but dispatch and read, so what every dispatch preserves the whole
program preserves, whichever way it takes and however it ends: `run_keeps`.  It is enough
that the actions it may dispatch do so, and these are all in the tree that the program is:
`Sends` says something of every one of them.

A dispatcher can be watched.  If another one does the same and keeps more, then a program
that is run against it does the same as well: `run_watches`.
-/
import Reducer.Program

namespace Reducer

variable {σ τ : Type}

/-- A dispatcher does what another one does, and may keep more than that one's state. -/
structure Dispatcher.Watches (dispatcher : Dispatcher τ) (other : Dispatcher σ) (seen : τ → σ) :
    Prop where
  dispatch : ∀ action state, other.dispatch action (seen state) =
    ((dispatcher.dispatch action state).1, seen (dispatcher.dispatch action state).2)
  state : ∀ state, other.state (seen state) = dispatcher.state state

namespace Program

/-- Every action the program may dispatch is such an action. -/
def Sends (P : Action → Prop) : Program → Prop
  | done | fail _ => True
  | dispatch action next => P action ∧ ∀ outcome, (next outcome).Sends P
  | read next => ∀ state, (next state).Sends P

variable {P Q : Action → Prop} {program : Program}

theorem Sends.mono (h : program.Sends P) (himp : ∀ action, P action → Q action) :
    program.Sends Q := by
  induction program with
  | done => trivial
  | fail fault => trivial
  | dispatch action next ih => exact ⟨himp action h.1, fun outcome => ih outcome (h.2 outcome)⟩
  | read next ih => exact fun state => ih state (h state)

theorem sends_true (program : Program) : program.Sends fun _ => True := by
  induction program with
  | done => trivial
  | fail fault => trivial
  | dispatch action next ih => exact ⟨trivial, ih⟩
  | read next ih => exact ih

theorem sends_send {action : Action} (h : P action) : (send action).Sends P := by
  refine ⟨h, fun outcome => ?_⟩
  cases outcome <;> trivial

/-- Sending an action is dispatching it, once, and ending as that ends. -/
theorem run_send (dispatcher : Dispatcher σ) (action : Action) :
    (send action).run dispatcher = dispatcher.dispatch action := by
  unfold send
  rw [run]
  refine (bind_congr fun outcome => ?_).trans (bind_pure (dispatcher.dispatch action))
  cases outcome <;> rfl

/-- **What each dispatch preserves, the program preserves.** -/
theorem run_keeps {dispatcher : Dispatcher σ} {Keeps : σ → Prop} (hprogram : program.Sends P)
    (hdispatch : ∀ action, P action → ∀ state, Keeps state →
      Keeps (dispatcher.dispatch action state).2)
    {state : σ} (h : Keeps state) : Keeps (program.run dispatcher state).2 := by
  induction program generalizing state with
  | done => exact h
  | fail fault => exact h
  | dispatch action next ih =>
      exact ih _ (hprogram.2 _) (hdispatch action hprogram.1 state h)
  | read next ih => exact ih _ (hprogram _) h

/-- **A program does the same where it is watched.** -/
theorem run_watches {dispatcher : Dispatcher τ} {other : Dispatcher σ} {seen : τ → σ}
    (h : dispatcher.Watches other seen) (program : Program) (state : τ) :
    program.run other (seen state) =
      ((program.run dispatcher state).1, seen (program.run dispatcher state).2) := by
  induction program generalizing state with
  | done => rfl
  | fail fault => rfl
  | dispatch action next ih =>
      show (next (other.dispatch action (seen state)).1).run other
        (other.dispatch action (seen state)).2 = _
      rw [h.dispatch]
      exact ih _ _
  | read next ih =>
      show (next (other.state (seen state))).run other (seen state) = _
      rw [h.state]
      exact ih _ _

end Program

end Reducer
