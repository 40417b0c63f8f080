import Mathlib

/-!
# Labelled transition systems

A system is a partial step function `σ → ε → Option σ`: the event says which
party moves and what its environment answers, and `none` means that the event
is not possible.  `Reaches` collects the states of all runs whose events meet a
side condition, `ReachesIn` also counts the steps, and `run` executes one given
run.
-/

namespace Rapi.Foundation

section Transition

variable {σ ε : Type*} (step : σ → ε → Option σ)

inductive Reaches (allowed : σ → ε → Prop) (start : σ) : σ → Prop
  | refl : Reaches allowed start start
  | next {s t : σ} {e : ε} : Reaches allowed start s → allowed s e →
      step s e = some t → Reaches allowed start t

/-- The condition of runs without any restriction. -/
def Anything : σ → ε → Prop := fun _ _ => True

variable {allowed : σ → ε → Prop} {start s : σ} {n : Nat}

theorem Reaches.invariant {P : σ → Prop} (hreach : Reaches step allowed start s) (hstart : P start)
    (hstep : ∀ s e t, P s → allowed s e → step s e = some t → P t) : P s := by
  induction hreach with
  | refl => exact hstart
  | next _ hallowed hnext ih => exact hstep _ _ _ ih hallowed hnext

inductive ReachesIn (allowed : σ → ε → Prop) (start : σ) : Nat → σ → Prop
  | refl : ReachesIn allowed start 0 start
  | next {n : Nat} {s t : σ} {e : ε} : ReachesIn allowed start n s →
      allowed s e → step s e = some t → ReachesIn allowed start (n + 1) t

theorem ReachesIn.reaches (hreach : ReachesIn step allowed start n s) :
    Reaches step allowed start s := by
  induction hreach with
  | refl => exact .refl
  | next _ hallowed hnext ih => exact ih.next hallowed hnext

theorem ReachesIn.invariant {P : Nat → σ → Prop}
    (hreach : ReachesIn step allowed start n s) (hstart : P 0 start)
    (hstep : ∀ n s e t, P n s → allowed s e → step s e = some t → P (n + 1) t) :
    P n s := by
  induction hreach with
  | refl => exact hstart
  | next _ hallowed hnext ih => exact hstep _ _ _ _ ih hallowed hnext

theorem Reaches.reachesIn (hreach : Reaches step allowed start s) :
    ∃ n, ReachesIn step allowed start n s := by
  induction hreach with
  | refl => exact ⟨0, .refl⟩
  | next _ hallowed hnext ih =>
    obtain ⟨n, hn⟩ := ih
    exact ⟨n + 1, hn.next hallowed hnext⟩

/-- Runs that are bounded and can always go on reach their end. -/
theorem exists_ended {Ended : σ → Prop} {bound : Nat}
    (hbound : ∀ n s, ReachesIn step allowed start n s → n ≤ bound)
    (hprogress : ∀ n s, ReachesIn step allowed start n s → ¬ Ended s →
      ∃ e t, allowed s e ∧ step s e = some t) :
    ∃ n s, ReachesIn step allowed start n s ∧ Ended s := by
  by_contra hnone
  have hlong : ∀ n, ∃ s, ReachesIn step allowed start n s := by
    intro n
    induction n with
    | zero => exact ⟨start, .refl⟩
    | succ n ih =>
      obtain ⟨s, hs⟩ := ih
      obtain ⟨e, t, hallowed, hnext⟩ := hprogress n s hs fun hended => hnone ⟨n, s, hs, hended⟩
      exact ⟨t, hs.next hallowed hnext⟩
  obtain ⟨s, hs⟩ := hlong (bound + 1)
  exact absurd (hbound _ s hs) (Nat.not_succ_le_self bound)

def run : σ → List ε → Option σ
  | s, [] => some s
  | s, e :: events =>
    match step s e with
    | none => none
    | some t => run t events

theorem reachesIn_of_run {t : σ} {events : List ε} (hreach : ReachesIn step allowed start n s)
    (hallowed : ∀ s, ∀ e ∈ events, allowed s e) (hrun : run step s events = some t) :
    ReachesIn step allowed start (n + events.length) t := by
  induction events generalizing n s with
  | nil =>
    cases hrun
    exact hreach
  | cons e events ih =>
    simp only [run] at hrun
    cases hnext : step s e with
    | none => simp [hnext] at hrun
    | some next =>
      simp only [hnext] at hrun
      rw [List.length_cons, ← Nat.succ_add_eq_add_succ]
      exact ih (hreach.next (hallowed s e (by simp)) hnext)
        (fun s' e' he' => hallowed s' e' (by simp [he'])) hrun

theorem reaches_of_run {t : σ} {events : List ε} (hreach : Reaches step allowed start s)
    (hallowed : ∀ s, ∀ e ∈ events, allowed s e) (hrun : run step s events = some t) :
    Reaches step allowed start t := by
  obtain ⟨n, hn⟩ := hreach.reachesIn
  exact (reachesIn_of_run step hn hallowed hrun).reaches

end Transition

end Rapi.Foundation
