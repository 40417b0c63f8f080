import Rapi.Foundation.Composition

/-!
# Playing a schedule

The actions of a system are a relation.  Where a function gives answers that the
relation allows, programs and pools can be evaluated, and what the evaluation comes
to is reached by a run.
-/

namespace Rapi.Foundation

open Function

variable {σ Op : Type} {Res : Op → Type} {α ι : Type}

/-- What the action may return in the state, and the state after it. -/
abbrev System.Answer (sys : System σ Op Res) (op : Op) (s : σ) : Type :=
  { found : Res op × σ // sys.exec op s found.1 found.2 }

/-- Some of the answers that the actions may have, and of what the environment may do. -/
structure Playback (sys : System σ Op Res) where
  answer : (op : Op) → (s : σ) → Option (sys.Answer op s)
  interfere : (s : σ) → Option { s' // sys.env s s' } := fun _ => none

namespace Playback

variable {sys : System σ Op Res}

/-- Answers to the actions of a system on top of another one. -/
def extend {τ Op' : Type} {Res' : Op' → Type} (pb : Playback sys)
    {exec : (op : Op') → σ → τ → Res' op → τ → Prop} {env : τ → τ → Prop}
    (answer : (op : Op') → (s : σ) → (t : τ) →
      Option { found : Res' op × τ // exec op s t found.1 found.2 }) :
    Playback (sys.extend exec env) where
  answer
    | .inl op, (s, t) => (pb.answer op s).map fun ⟨(res, s'), h⟩ => ⟨(res, s', t), h, rfl⟩
    | .inr op, (s, t) => (answer op s t).map fun ⟨(res, t'), h⟩ => ⟨(res, s, t'), rfl, h⟩

/-- The answers that meet the condition. -/
def restrict (pb : Playback sys) (P : (op : Op) → Res op → Prop)
    [∀ op res, Decidable (P op res)] : Playback (sys.restrict P) where
  answer op s := (pb.answer op s).bind fun ⟨found, h⟩ =>
    if hP : P op found.1 then some ⟨found, h, hP⟩ else none
  interfere := pb.interfere

end Playback

inductive Turn (ι : Type)
  | environment
  | thread (i : ι)

variable {sys : System σ Op Res} (pb : Playback sys)

namespace Prog

/-- The program runs as long as there are answers, and the rest of it is left. -/
def advance : Prog Op Res α → σ → Prog Op Res α × σ
  | .ret value, s => (.ret value, s)
  | .act op next, s =>
    match pb.answer op s with
    | none => (.act op next, s)
    | some ⟨(res, s'), _⟩ => (next res).advance s'

def value? : Prog Op Res α → Option α
  | .ret value => some value
  | .act _ _ => none

def play (p : Prog Op Res α) (s : σ) : Option (α × σ) :=
  (p.advance pb s).1.value?.map (·, (p.advance pb s).2)

theorem eq_ret_of_value? {p : Prog Op Res α} {value : α} (h : p.value? = some value) :
    p = .ret value := by
  cases p with
  | ret _ => exact congrArg Prog.ret (Option.some.inj h)
  | act _ _ => cases h

end Prog

theorem runs_of_play {p : Prog Op Res α} {s s' : σ} {value : α}
    (h : p.play pb s = some (value, s')) : Runs sys p s value s' := by
  obtain ⟨result, hvalue, hresult⟩ := Option.map_eq_some_iff.mp h
  obtain ⟨rfl, rfl⟩ := Prod.mk.inj hresult
  replace hvalue := Prog.eq_ret_of_value? hvalue
  clear h hresult
  induction p generalizing s with
  | ret _ =>
    cases hvalue
    exact .ret
  | act op next ih =>
    rw [Prog.advance] at hvalue ⊢
    split at hvalue
    · cases hvalue
    · rename_i hexec _
      exact .act hexec (ih _ hvalue)

theorem exists_runs (p : Prog Op Res α) (s : σ) (P : α × σ → Prop) [DecidablePred P]
    (h : ((p.play pb s).any fun found => decide (P found))) :
    ∃ value s', Runs sys p s value s' ∧ P (value, s') := by
  obtain ⟨⟨value, s'⟩, hplay, hP⟩ := (Option.any_eq_true _ _).mp h
  exact ⟨value, s', runs_of_play pb hplay, of_decide_eq_true hP⟩

namespace Pool

/-- The results of the threads that have ended. -/
def result? (pool : Pool σ Op Res α ι) (i : ι) : Option α := (pool.threads i).current.value?.join

variable {pool : Pool σ Op Res α ι}

theorem current_of_result? {i : ι} {result : α} (h : pool.result? i = some result) :
    (pool.threads i).current = .ret (some result) :=
  Prog.eq_ret_of_value? (Option.join_eq_some_iff.mp h)

theorem finished_of_result? {results : ι → α}
    (h : ∀ i, pool.result? i = some (results i)) : pool.Finished results :=
  fun i => current_of_result? (h i)

variable [DecidableEq ι]

/-- A thread goes on as far as it can, and starts over if it has come to the end
without a result. -/
def turn (pool : Pool σ Op Res α ι) : Turn ι → Pool σ Op Res α ι
  | .environment => ⟨((pb.interfere pool.state).map Subtype.val).getD pool.state, pool.threads⟩
  | .thread i =>
    let thread := pool.threads i
    let after := thread.current.advance pb pool.state
    let current :=
      match after.1 with
      | .ret none => thread.loop
      | rest => rest
    ⟨after.2, Function.update pool.threads i ⟨thread.loop, current⟩⟩

def play (pool : Pool σ Op Res α ι) (turns : List (Turn ι)) : Pool σ Op Res α ι :=
  turns.foldl (turn pb) pool

theorem steps_advance {p : Prog Op Res (Option α)} (s : σ)
    (threads : ι → Thread Op Res α) {i : ι} (hcurrent : (threads i).current = p) :
    Relation.ReflTransGen (Step sys) ⟨s, threads⟩ ⟨(p.advance pb s).2, Function.update threads i
        ⟨(threads i).loop, (p.advance pb s).1⟩⟩ := by
  induction p generalizing s threads with
  | ret value =>
    have hsame : (⟨(threads i).loop, .ret value⟩ : Thread Op Res α) = threads i := by
      rw [← hcurrent]
    rw [Prog.advance, hsame, update_eq_self]
  | act op next ih =>
    rw [Prog.advance]
    split
    · have hsame : (⟨(threads i).loop, .act op next⟩ : Thread Op Res α) = threads i := by
        rw [← hcurrent]
      rw [hsame, update_eq_self]
    · rename_i res s' hexec _
      refine .head (.act i hcurrent hexec) ?_
      have hrest := ih res s' (update threads i ⟨(threads i).loop, next res⟩) (by rw [update_self])
      rwa [update_idem, update_self] at hrest

theorem steps_turn (pool : Pool σ Op Res α ι) (t : Turn ι) :
    Relation.ReflTransGen (Step sys) pool (pool.turn pb t) := by
  cases t with
  | environment =>
    unfold turn
    cases hinterfere : pb.interfere pool.state with
    | none => exact .refl
    | some found => exact .single (.env found.2)
  | thread i =>
    have hsteps : Relation.ReflTransGen (Step sys) pool _ :=
      steps_advance pb pool.state pool.threads (rfl : (pool.threads i).current = _)
    unfold turn
    dsimp only
    split
    · rename_i hnone
      refine hsteps.tail ?_
      rw [hnone]
      have hagain : Step sys ⟨((pool.threads i).current.advance pb pool.state).2,
          update pool.threads i ⟨(pool.threads i).loop, .ret none⟩⟩ _ :=
        .again i (by rw [update_self])
      rwa [update_idem, update_self] at hagain
    · exact hsteps

theorem steps_play (pool : Pool σ Op Res α ι) (turns : List (Turn ι)) :
    Relation.ReflTransGen (Step sys) pool (pool.play pb turns) := by
  induction turns generalizing pool with
  | nil => exact .refl
  | cons t turns ih => exact (pool.steps_turn pb t).trans (ih _)

theorem exists_steps (pool : Pool σ Op Res α ι) (turns : List (Turn ι))
    (P : Pool σ Op Res α ι → Prop) (h : P (pool.play pb turns)) :
    ∃ pool', Relation.ReflTransGen (Step sys) pool pool' ∧ P pool' :=
  ⟨_, pool.steps_play pb turns, h⟩

end Pool

end Rapi.Foundation
