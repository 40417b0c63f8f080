import Rapi.Foundation.Slots
import Rapi.Foundation.Transition

/-!
# Handing out a list to workers

A producer sends the items of a list through an unbuffered channel and closes
it.  Each of `k` workers takes an item, computes a result from it and records
the result while it holds a lock, until the channel is closed.  However the
goroutines are scheduled, every run ends, and then the result of every item has
been recorded once.
-/

namespace Rapi.Foundation.Fanout

open Function Multiset

inductive Worker (α β : Type)
  | waiting
  | computing (item : α)
  | recording (result : β)
  | ended

structure State (α β : Type) (k : Nat) where
  unsent : List α
  closed : Bool
  workers : Fin k → Worker α β
  results : List β

inductive Event (k : Nat)
  | send (i : Fin k)
  | compute (i : Fin k)
  | record (i : Fin k)
  | close
  | finish (i : Fin k)

section Runs

variable {α β : Type} {k : Nat} (f : α → β)

def start (items : List α) : State α β k where
  unsent := items
  closed := false
  workers _ := .waiting
  results := []

def State.set (s : State α β k) (i : Fin k) (worker : Worker α β) : State α β k :=
  { s with workers := update s.workers i worker }

def step (s : State α β k) : Event k → Option (State α β k)
  | .send i =>
    match s.unsent, s.workers i with
    | item :: rest, .waiting => some { s.set i (.computing item) with unsent := rest }
    | _, _ => none
  | .compute i =>
    match s.workers i with
    | .computing item => some (s.set i (.recording (f item)))
    | _ => none
  | .record i =>
    match s.workers i with
    | .recording result => some { s.set i .waiting with results := s.results ++ [result] }
    | _ => none
  | .close =>
    if s.unsent.isEmpty ∧ s.closed = false then some { s with closed := true }
    else none
  | .finish i =>
    match s.workers i with
    | .waiting => if s.closed then some (s.set i .ended) else none
    | _ => none

def Worker.isEnded : Worker α β → Bool
  | .ended => true
  | _ => false

def State.Ended (s : State α β k) : Prop := s.closed ∧ ∀ i, (s.workers i).isEnded

instance (s : State α β k) : Decidable s.Ended := inferInstanceAs (Decidable (_ ∧ _))

inductive Step (s : State α β k) : State α β k → Prop
  | send {i : Fin k} {item : α} {rest : List α}
      (hworker : s.workers i = .waiting) (hunsent : s.unsent = item :: rest) :
      Step s { s.set i (.computing item) with unsent := rest }
  | compute {i : Fin k} {item : α} (hworker : s.workers i = .computing item) :
      Step s (s.set i (.recording (f item)))
  | record {i : Fin k} {result : β} (hworker : s.workers i = .recording result) :
      Step s { s.set i .waiting with results := s.results ++ [result] }
  | close (hunsent : s.unsent = []) (hclosed : s.closed = false) : Step s { s with closed := true }
  | finish {i : Fin k} (hworker : s.workers i = .waiting)
      (hclosed : s.closed) : Step s (s.set i .ended)

variable {f} {s t : State α β k} {e : Event k}

theorem Step.of_step (h : step f s e = some t) : Step f s t := by
  cases e <;> simp only [step] at h
  case send =>
      split at h
      · next hunsent hworker =>
          cases h
          exact .send hworker hunsent
      · contradiction
  case compute =>
      split at h
      · next hworker =>
          cases h
          exact .compute hworker
      · contradiction
  case record =>
      split at h
      · next hworker =>
          cases h
          exact .record hworker
      · contradiction
  case close =>
      obtain ⟨⟨hunsent, hclosed⟩, rfl⟩ := by simpa using h
      exact .close hunsent hclosed
  case finish =>
      split at h
      · next hworker =>
          obtain ⟨hclosed, rfl⟩ := by simpa using h
          exact .finish hworker hclosed
      · contradiction

/-! ## Where the results are -/

def Worker.pending (f : α → β) : Worker α β → Multiset β
  | .computing item => {f item}
  | .recording result => {result}
  | _ => 0

def Worker.work : Worker α β → Nat
  | .waiting => 1
  | .computing _ => 3
  | .recording _ => 2
  | .ended => 0

def State.work (s : State α β k) : Nat :=
  (if s.closed then 0 else 1) + (∑ i, (s.workers i).work + 3 * s.unsent.length)

structure Reached (f : α → β) (items : List α) (n : Nat) (s : State α β k) : Prop where
  closed : s.closed → s.unsent = []
  ended : ∀ i, s.workers i = .ended → s.closed
  results : (s.results : Multiset β) + ∑ i, (s.workers i).pending f +
    (s.unsent.map f : List β) = (items.map f : List β)
  steps : n + s.work ≤ 3 * items.length + k + 1

variable {items : List α} {n : Nat}

theorem reached_start : Reached f items 0 (start items : State α β k) where
  closed := nofun
  ended := nofun
  results := by simp [start, Worker.pending]
  steps := by
    simp [State.work, start, Worker.work]
    omega

variable {i : Fin k} {worker : Worker α β}

private theorem ended_update (hs : Reached f items n s) (hi : worker = .ended → s.closed)
    (j : Fin k) (hj : update s.workers i worker j = .ended) : s.closed := by
  rw [update_apply] at hj
  split at hj
  · exact hi hj
  · exact hs.ended j hj

private theorem results_of_move (hs : Reached f items n s)
    (hworkers : t.workers = update s.workers i worker)
    (hmove : (t.results : Multiset β) + worker.pending f + (t.unsent.map f : List β) =
      s.results + (s.workers i).pending f + (s.unsent.map f : List β)) :
    (t.results : Multiset β) + ∑ j, (t.workers j).pending f +
      (t.unsent.map f : List β) = (items.map f : List β) := by
  rw [← hs.results, hworkers, sum_update_slot (Worker.pending f),
    sum_slot (Worker.pending f) s.workers i]
  generalize ∑ j ∈ Finset.univ.erase i, (s.workers j).pending f = others
  rw [← add_assoc, ← add_assoc, add_right_comm, hmove]
  abel

private theorem steps_of_move (hs : Reached f items n s) (hclosed : t.closed = s.closed)
    (hworkers : t.workers = update s.workers i worker)
    (hmove : worker.work + 3 * t.unsent.length + 1 ≤ (s.workers i).work + 3 * s.unsent.length) :
    n + 1 + t.work ≤ 3 * items.length + k + 1 := by
  have hsteps := hs.steps
  unfold State.work at hsteps ⊢
  rw [sum_slot Worker.work s.workers i] at hsteps
  rw [hclosed, hworkers, sum_update_slot Worker.work]
  omega

theorem Reached.next (hs : Reached f items n s) (h : Step f s t) : Reached f items (n + 1) t := by
  cases h with
  | send hworker hunsent =>
    refine ⟨fun hclosed => ?_, ended_update hs nofun,
      results_of_move hs rfl ?_, steps_of_move hs rfl rfl ?_⟩
    · rw [hs.closed hclosed] at hunsent
      cases hunsent
    · rw [hworker, hunsent]
      simp only [Worker.pending, State.set, List.map_cons,
        ← cons_coe, ← singleton_add, add_zero, add_assoc]
    · rw [hworker, hunsent]
      simp only [Worker.work, List.length_cons]
      omega
  | compute hworker =>
    refine ⟨hs.closed, ended_update hs nofun, results_of_move hs rfl ?_,
      steps_of_move hs rfl rfl ?_⟩
    · rw [hworker]
      rfl
    · rw [hworker]
      simp only [Worker.work, State.set]
      omega
  | record hworker =>
    refine ⟨hs.closed, ended_update hs nofun, results_of_move hs rfl ?_,
      steps_of_move hs rfl rfl ?_⟩
    · rw [hworker]
      simp [Worker.pending, State.set, ← coe_add]
    · rw [hworker]
      simp only [Worker.work, State.set]
      omega
  | close hunsent hclosed =>
    refine ⟨fun _ => hunsent, fun _ _ => rfl, hs.results, ?_⟩
    have hsteps := hs.steps
    simp only [State.work, hclosed, Bool.false_eq_true, if_true, if_false] at hsteps ⊢
    omega
  | finish hworker hclosed =>
    refine ⟨hs.closed, ended_update hs fun _ => hclosed,
      results_of_move hs rfl ?_, steps_of_move hs rfl rfl ?_⟩
    · rw [hworker]
      rfl
    · rw [hworker]
      simp only [Worker.work, State.set]
      omega

theorem Worker.isEnded_iff : worker.isEnded ↔ worker = .ended := by
  cases worker <;> simp [Worker.isEnded]

theorem Reached.progress (hs : Reached f items n s) (hk : 0 < k)
    (hended : ¬ s.Ended) : ∃ e t, step f s e = some t := by
  by_cases hall : ∀ i, s.workers i = .waiting ∨ s.workers i = .ended
  · by_cases hclosed : s.closed
    · obtain ⟨i, hi⟩ : ∃ i, s.workers i ≠ .ended := by
        by_contra hnone
        refine hended ⟨hclosed, fun i => Worker.isEnded_iff.mpr ?_⟩
        by_contra hi
        exact hnone ⟨i, hi⟩
      have hwaiting := (hall i).resolve_right hi
      exact ⟨.finish i, _, by simp [step, hwaiting, hclosed]; rfl⟩
    · have hwaiting : ∀ i, s.workers i = .waiting := fun i =>
        (hall i).resolve_right fun hi => hclosed (hs.ended i hi)
      cases hunsent : s.unsent with
      | nil => exact ⟨.close, _, by simp [step, hunsent, hclosed]; rfl⟩
      | cons item rest => exact ⟨.send ⟨0, hk⟩, _, by simp [step, hunsent, hwaiting]; rfl⟩
  · obtain ⟨i, hi⟩ := not_forall.mp hall
    cases hworker : s.workers i with
    | waiting => exact absurd (.inl hworker) hi
    | computing item => exact ⟨.compute i, _, by simp [step, hworker]; rfl⟩
    | recording result => exact ⟨.record i, _, by simp [step, hworker]; rfl⟩
    | ended => exact absurd (.inr hworker) hi

/-- The results are recorded in some order, each of them once. -/
theorem Reached.perm (hs : Reached f items n s) (hended : s.Ended) :
    s.results.Perm (items.map f) := by
  have hpending : ∑ i, (s.workers i).pending f = 0 := by
    refine Finset.sum_eq_zero fun i _ => ?_
    rw [Worker.isEnded_iff.mp (hended.2 i)]
    rfl
  have hresults := hs.results
  rw [hpending, hs.closed hended.1, List.map_nil, coe_nil, add_zero, add_zero] at hresults
  exact coe_eq_coe.mp hresults

end Runs

end Rapi.Foundation.Fanout
