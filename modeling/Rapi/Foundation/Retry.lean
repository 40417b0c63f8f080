import Mathlib

/-!
# Repeating an operation that fails

An operation is repeated until it succeeds, fails for good, or its context is
done.  What the environment does in each attempt stands on a finite tape; at the
end of the tape the limit of attempts is reached.
-/

namespace Rapi.Foundation

variable {α σ ε : Type}

/-- `last` is the last attempt, if there was one. -/
structure Retried (α σ ε : Type) where
  err : Option ε
  state : σ
  last : Option α

section RetryNotify

variable (operation : α → σ → Option ε × σ) (permanent : ε → Option ε) (ctxErr : α → σ → Option ε)

def retryNotify (attempt : α) (tape : List α) (s : σ) : Retried α σ ε :=
  match operation attempt s with
  | (none, s') => ⟨none, s', some attempt⟩
  | (some err, s') =>
    match permanent err, ctxErr attempt s' with
    | some cause, _ => ⟨some cause, s', some attempt⟩
    | none, some done => ⟨some done, s', some attempt⟩
    | none, none =>
      match tape with
      | [] => ⟨some err, s', some attempt⟩
      | next :: rest => retryNotify next rest s'

/-- The invariant holds before every attempt.  An attempt that succeeds, and one
that may be the last, establish the postcondition. -/
theorem retryNotify_rule {I : σ → Prop} {Q : Retried α σ ε → Prop}
    (hsuccess : ∀ attempt s s', I s → operation attempt s = (none, s') → Q ⟨none, s', some attempt⟩)
    (hfailure : ∀ attempt s err s', I s → operation attempt s = (some err, s') →
      (∀ e, Q ⟨some e, s', some attempt⟩) ∧ (ctxErr attempt s' = none → I s'))
    (attempt : α) (tape : List α) {s : σ} (hs : I s) :
    Q (retryNotify operation permanent ctxErr attempt tape s) := by
  induction tape generalizing attempt s with
  | nil =>
    unfold retryNotify
    split
    · exact hsuccess _ _ _ hs (by assumption)
    · rename_i hop
      have hlast := (hfailure _ _ _ _ hs hop).1
      split <;> exact hlast _
  | cons next rest ih =>
    unfold retryNotify
    split
    · exact hsuccess _ _ _ hs (by assumption)
    · rename_i hop
      obtain ⟨hlast, hnext⟩ := hfailure _ _ _ _ hs hop
      split
      · exact hlast _
      · exact hlast _
      · rename_i hdone
        exact ih next (hnext hdone)

/-- The attempts `failed` and then the attempt `last`. -/
def retryUntil (failed : List α) (last : α) (s : σ) : Retried α σ ε :=
  match failed with
  | [] => retryNotify operation permanent ctxErr last [] s
  | attempt :: rest => retryNotify operation permanent ctxErr attempt (rest ++ [last]) s

/-- What the last attempt establishes in every state that failed attempts can
leave behind holds at the end. -/
theorem retryUntil_rule {I Q : σ → Prop} {failed : List α} {last : α}
    (hfailed : ∀ attempt ∈ failed, ∀ s, I s → ∃ err s',
      operation attempt s = (some err, s') ∧ permanent err = none ∧
        ctxErr attempt s' = none ∧ I s')
    (hlast : ∀ s, I s → ∃ s', operation last s = (none, s') ∧ Q s') {s : σ} (hs : I s) :
    ∃ s', retryUntil operation permanent ctxErr failed last s = ⟨none, s', some last⟩ ∧ Q s' := by
  induction failed generalizing s with
  | nil =>
    obtain ⟨s', hop, hQ⟩ := hlast s hs
    refine ⟨s', ?_, hQ⟩
    simp only [retryUntil, retryNotify, hop]
  | cons attempt rest ih =>
    obtain ⟨err, s₁, hop, hpermanent, hctx, hs₁⟩ := hfailed attempt List.mem_cons_self s hs
    obtain ⟨s', hrest, hQ⟩ := ih (fun a ha => hfailed a (List.mem_cons_of_mem _ ha)) hs₁
    refine ⟨s', ?_, hQ⟩
    rw [← hrest]
    cases rest with
    | nil => simp only [retryUntil, List.nil_append, retryNotify, hop, hpermanent, hctx]
    | cons next rest =>
      rw [retryUntil, List.cons_append, retryNotify]
      simp only [hop, hpermanent, hctx, retryUntil]

end RetryNotify

end Rapi.Foundation
