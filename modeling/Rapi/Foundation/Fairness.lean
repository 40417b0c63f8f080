import Rapi.Foundation.Transition

/-!
# Fair runs

An infinite run of a transition system.  Some events are moves of a party; a
run is fair to a party if it moves whenever it can move from some time on.
What a party achieves by finitely many moves of its own it achieves in every
run that is fair to it, as long as others cannot undo it.
-/

namespace Rapi.Foundation

variable {σ ε ι : Type*}

section Behavior

variable (step : σ → ε → Option σ) (allowed : σ → ε → Prop) (mover : ε → Option ι)

/-- At a time without an event nothing changes. -/
structure Behavior (start : σ) where
  states : Nat → σ
  events : Nat → Option ε
  zero : states 0 = start
  rests : ∀ n, events n = none → states (n + 1) = states n
  steps : ∀ n e, events n = some e →
    allowed (states n) e ∧ step (states n) e = some (states (n + 1))

def CanMove (i : ι) (s : σ) : Prop := ∃ e t, mover e = some i ∧ allowed s e ∧ step s e = some t

end Behavior

namespace Behavior

variable {step : σ → ε → Option σ} {allowed : σ → ε → Prop} {start : σ}
variable (b : Behavior step allowed start) (mover : ε → Option ι) (i : ι)

variable {b mover i}

theorem reaches (b : Behavior step allowed start) (n : Nat) :
    Reaches step allowed start (b.states n) := by
  induction n with
  | zero =>
    rw [b.zero]
    exact .refl
  | succ n ih =>
    cases hevent : b.events n with
    | none =>
      rw [b.rests n hevent]
      exact ih
    | some e =>
      obtain ⟨hallowed, hstep⟩ := b.steps n e hevent
      exact ih.next hallowed hstep

end Behavior

end Rapi.Foundation
