import Rapi.Foundation.Playback
import Rapi.Restorer.TraverseTree
import Rapi.Restorer.VerifyFile

/-!
# Verifying all files of a snapshot

One goroutine traverses the snapshot and sends the regular files to a buffered
channel.  Several workers receive and verify them.  The first error cancels the
context of the group, and the caller may cancel it at any time.

A worker that sees the cancelled context ends without an error.  If all files
have been sent by then, nobody reports the cancellation, and files that are
still in the channel are not verified.
-/

namespace Rapi.Restorer

open Foundation Foundation.FilePath Restic Multiset Logic

namespace VerifyFiles

def nVerifyWorkers : Nat := 8

structure MustCheck where
  node : Node
  path : Bytes
  deriving DecidableEq

/-- `ctx` is the error of the context of the group and `err` the first error of
a goroutine.  `visited` lists the files that the traversal came to, `verified`
those for which `verifyFile` has succeeded. -/
structure State where
  ctx : Option Failure
  callerDone : Bool
  err : Option Failure
  work : List MustCheck
  closed : Bool
  bufs : Fin nVerifyWorkers → Bytes
  nchecked : Nat
  disk : Bytes → Except Failure OpenFile
  visited : List MustCheck
  verified : List MustCheck

inductive WorkerCall
  | close
  | done (err : Option Failure)
  | receive
  | verifyFile (worker : Fin nVerifyWorkers) (job : MustCheck)
  | ctxErr
  | addChecked

abbrev WorkerCall.Res : WorkerCall → Type
  | .receive => Option MustCheck
  | .verifyFile _ _ => Option Failure
  | .ctxErr => Option Failure
  | _ => Unit

abbrev VerifyM := Prog (Call ⊕ WorkerCall) (Sum.elim Call.Res WorkerCall.Res)

abbrev call (op : WorkerCall) : VerifyM op.Res := Prog.onTop op

/-! ## What the calls do -/

/-- The visitor of `VerifyFiles`.  A file is sent unless the context is done;
when both are possible either may happen. -/
def visitNode (visit : Visit) (s : State) (res : Option Failure) (s' : State) : Prop :=
  let job : MustCheck := ⟨visit.node, visit.target⟩
  if visit.node.type ≠ .file then res = none ∧ s' = s
  else
    (∃ failure, s.ctx = some failure ∧ res = some failure ∧
      s' = { s with visited := job :: s.visited }) ∨
    (s.closed = false ∧ s.work.length < 2 * nVerifyWorkers ∧ res = none ∧
      s' = { s with work := s.work ++ [job], visited := job :: s.visited })

/-- A tree may fail to load.  The error handler is the default one, and the
visitor has no other function. -/
def execTraverse : (call : Call) → State → call.Res → State → Prop
  | .loadTree _, s, _, s' => s' = s
  | .error _ failure, s, res, s' => res = some failure ∧ s' = s
  | .selectFilter _ _ _, s, _, s' => s' = s
  | .visitNode visit, s, res, s' => visitNode visit s res s'
  | .enterDir _, _, _, _ => False
  | .leaveDir _, _, _, _ => False

/-- The group keeps the first error, and cancels its context. -/
def State.done (s : State) : Option Failure → State
  | none => s
  | some failure =>
    { s with
      err := some (s.err.getD failure)
      ctx := some (s.ctx.getD .canceled) }

variable (res : Verifier)

def execWorker : (call : WorkerCall) → State → call.Res → State → Prop
  | .close, s, _, s' => s' = { s with closed := true }
  | .done err, s, _, s' => s' = s.done err
  | .receive, s, none, s' => s.work = [] ∧ s.closed ∧ s' = s
  | .receive, s, some job, s' => ∃ rest, s.work = job :: rest ∧ s' = { s with work := rest }
  | .verifyFile worker job, s, err, s' =>
    let result := res.verifyFile (s.disk job.path) job.path job.node (s.bufs worker)
    err = result.2 ∧
      s' = { s with
        bufs := Function.update s.bufs worker result.1
        verified := if result.2 = none then job :: s.verified else s.verified }
  | .ctxErr, s, err, s' => err = s.ctx ∧ s' = s
  | .addChecked, s, _, s' => s' = { s with nchecked := s.nchecked + 1 }

/-- The caller cancels the context, or somebody changes the files. -/
inductive Env (s : State) : State → Prop
  | cancel (failure : Failure) (h : failure = .canceled ∨ failure = .deadlineExceeded) :
      Env s { s with callerDone := true, ctx := some (s.ctx.getD failure) }
  | change (disk : Bytes → Except Failure OpenFile) : Env s { s with disk := disk }

def system : System State (Call ⊕ WorkerCall) (Sum.elim Call.Res WorkerCall.Res) where
  exec
    | .inl call => execTraverse call
    | .inr call => execWorker res call
  env := Env

/-! ## The goroutines -/

def producer (tree : Tree) (dst : Bytes) : VerifyM (Option Failure) := do
  let (_, err) ← (tree.traverseTree ⟨false, false⟩ dst [separator]).lift
  call .close
  call (.done err)
  return err

def finish (err : Option Failure) : VerifyM (Option (Option Failure)) := do
  call (.done err)
  return some err

def worker (i : Fin nVerifyWorkers) : VerifyM (Option (Option Failure)) := do
  match ← call .receive with
  | none => finish none
  | some job =>
    match ← call (.verifyFile i job) with
    | some failure =>
      match ← (TraverseM.error job.path failure).lift with
      | some failure => finish (some failure)
      | none => next
    | none => next
where
  next : VerifyM (Option (Option Failure)) := do
    match ← call .ctxErr with
    | some _ => finish none
    | none =>
      call .addChecked
      return none

abbrev VerifyPool := Pool State (Call ⊕ WorkerCall)
  (Sum.elim Call.Res WorkerCall.Res) (Option Failure) (Option (Fin nVerifyWorkers))

def initial (disk : Bytes → Except Failure OpenFile) : State where
  ctx := none
  callerDone := false
  err := none
  work := []
  closed := false
  bufs _ := []
  nchecked := 0
  disk := disk
  visited := []
  verified := []

def start (disk : Bytes → Except Failure OpenFile) (tree : Tree) (dst : Bytes) : VerifyPool where
  state := initial disk
  threads
    | none => .once (producer tree dst)
    | some i => ⟨worker i, worker i⟩

/-- `g.Wait` returns an error when all goroutines have ended. -/
def Returns (pool : VerifyPool) (err : Option Failure) : Prop :=
  (∃ results, pool.Finished results) ∧ pool.state.err = err

/-! ## Where the files are -/

def Drained (s : State) : Prop := s.closed ∧ s.work = []

/-- As long as the context is not done, a file is in the channel, in the hand of
a worker, or verified. -/
structure Accounted (s : State) (inHand : Multiset MustCheck) : Prop where
  ctx : s.ctx = none ↔ s.err = none ∧ s.callerDone = false
  all : s.ctx = none → (s.visited : Multiset MustCheck) = inHand + (↑s.work + ↑s.verified)

structure Later (s s' : State) : Prop where
  ctx : s'.ctx = none → s.ctx = none
  drained : Drained s → Drained s'

theorem Later.refl (s : State) : Later s s := ⟨id, id⟩

theorem Later.trans {s s' s'' : State} (h : Later s s') (h' : Later s' s'') : Later s s'' :=
  ⟨h.ctx ∘ h'.ctx, h'.drained ∘ h.drained⟩

def logic : Logic State (Multiset MustCheck) where
  inv := Accounted
  later := Later
  busy _ := True
  refl := Later.refl
  trans := Later.trans
  busy_add _ _ := trivial

section Calls

variable {s s' : State} {inHand : Multiset MustCheck}

theorem visitNode_spec {visit : Visit} {err : Option Failure} (h : visitNode visit s err s')
    (hs : Accounted s inHand) : Accounted s' inHand ∧ Later s s' := by
  unfold visitNode at h
  split at h
  · obtain ⟨-, rfl⟩ := h
    exact ⟨hs, .refl _⟩
  · rcases h with ⟨failure, hctx, -, rfl⟩ | ⟨hopen, -, -, rfl⟩
    · refine ⟨⟨hs.ctx, fun hnone => ?_⟩, id, id⟩
      rw [show s.ctx = none from hnone] at hctx
      cases hctx
    · refine ⟨⟨hs.ctx, fun hnone => ?_⟩, id, fun hdrained => ?_⟩
      · let job : MustCheck := ⟨visit.node, visit.target⟩
        have hsent : ((s.work ++ [job] : List MustCheck) : Multiset MustCheck) = job ::ₘ ↑s.work :=
          coe_eq_coe.mpr (List.perm_append_singleton job s.work)
        change job ::ₘ (s.visited : Multiset MustCheck) = _
        rw [hs.all hnone, hsent, cons_add, add_cons]
      · rw [hdrained.1] at hopen
        cases hopen

theorem execTraverse_spec {call : Call} {answer : call.Res} (h : execTraverse call s answer s')
    (hs : Accounted s inHand) : Accounted s' inHand ∧ Later s s' := by
  cases call with
  | loadTree treeID | selectFilter location target node =>
    obtain rfl := h
    exact ⟨hs, .refl _⟩
  | error location failure =>
    obtain ⟨-, rfl⟩ := h
    exact ⟨hs, .refl _⟩
  | visitNode visit => exact visitNode_spec h hs
  | enterDir visit | leaveDir visit => exact h.elim

theorem done_spec (failure : Failure) (s : State) (inHand : Multiset MustCheck) :
    Accounted (s.done (some failure)) inHand ∧ Later s (s.done (some failure)) := by
  refine ⟨⟨?_, nofun⟩, nofun, id⟩
  simp [State.done]

theorem receive_spec {job : MustCheck} {rest : List MustCheck} (hwork : s.work = job :: rest)
    (hs : Accounted s inHand) : Accounted { s with work := rest } (job ::ₘ inHand) ∧
      Later s { s with work := rest } := by
  refine ⟨⟨hs.ctx, fun hnone => ?_⟩, id, fun hdrained => ?_⟩
  · rw [hs.all hnone, hwork, ← cons_coe, cons_add, cons_add, add_cons]
  · rw [hdrained.2] at hwork
    cases hwork

variable {res} in
theorem verifyFile_spec {i : Fin nVerifyWorkers} {job : MustCheck} {err : Option Failure}
    (h : execWorker res (.verifyFile i job) s err s') (hs : Accounted s (job ::ₘ inHand)) :
    Later s s' ∧ Accounted s' (if err = none then inHand else job ::ₘ inHand) := by
  obtain ⟨rfl, rfl⟩ := h
  refine ⟨⟨id, id⟩, hs.ctx, fun hnone => ?_⟩
  have hall := hs.all hnone
  split
  · change (s.visited : Multiset MustCheck) = inHand + (↑s.work + job ::ₘ ↑s.verified)
    rw [hall, cons_add, add_cons, add_cons]
  · exact hall

theorem env_spec (henv : Env s s') (hs : Accounted s inHand) :
    Accounted s' inHand ∧ Later s s' := by
  cases henv with
  | cancel failure _ => exact ⟨⟨by simp, nofun⟩, nofun, id⟩
  | change disk => exact ⟨⟨hs.ctx, hs.all⟩, id, id⟩

end Calls

/-! ## The goroutines keep account -/

section Goroutines

variable {res}

theorem wp_traverse {α : Type} (p : Prog Call Call.Res α) (s : State) :
    logic.wp (system res) p.lift (fun _ _ inHand => inHand = 0) s 0 := by
  induction p generalizing s with
  | ret value => exact fun _ _ => rfl
  | act call next ih =>
    refine ⟨trivial, fun s₁ frame _ hinv answer s₂ hexec => ?_⟩
    obtain ⟨hinv', hlater⟩ := execTraverse_spec hexec hinv
    exact ⟨0, hinv', hlater, ih answer s₂⟩

theorem wp_producer (tree : Tree) (dst : Bytes) (s : State) :
    logic.wp (system res) (producer tree dst) (fun _ _ inHand => inHand = 0) s 0 := by
  refine wp_bind (wp_mono (wp_traverse _ s) ?_)
  rintro ⟨_, err⟩ s₁ _ - rfl
  refine wp_perform trivial fun s₂ frame _ hinv _ s₃ hexec => ?_
  obtain rfl : s₃ = { s₂ with closed := true } := hexec
  refine ⟨0, ⟨hinv.ctx, hinv.all⟩, ⟨id, fun h => ⟨rfl, h.2⟩⟩, ?_⟩
  refine wp_perform trivial fun s₄ frame _ hinv _ s₅ hexec => ?_
  obtain rfl : s₅ = s₄.done err := hexec
  cases err with
  | none => exact ⟨0, hinv, .refl _, wp_pure fun _ _ => rfl⟩
  | some failure =>
    obtain ⟨hinv', hlater⟩ := done_spec failure s₄ (0 + frame)
    exact ⟨0, hinv', hlater, wp_pure fun _ _ => rfl⟩

def Ended (_ : Option Failure) (s : State) (inHand : Multiset MustCheck) : Prop :=
  inHand = 0 ∧ (s.ctx = none → Drained s)

abbrev turnPost : Option (Option Failure) → State → Multiset MustCheck → Prop :=
  Logic.loopPost (· = 0) Ended

theorem wp_finish_none {s : State} (h : s.ctx = none → Drained s) :
    logic.wp (system res) (finish none) turnPost s 0 := by
  refine wp_perform trivial fun s₁ frame hlater hinv _ s₂ hexec => ?_
  obtain rfl : s₂ = s₁ := hexec
  refine ⟨0, hinv, .refl _, wp_pure fun s₃ hlater' => ⟨rfl, ?_⟩⟩
  intro hnone
  have hall := hlater.trans hlater'
  exact hall.drained (h (hall.ctx hnone))

theorem wp_finish_some (failure : Failure) (s : State) (inHand : Multiset MustCheck) :
    logic.wp (system res) (finish (some failure)) turnPost s inHand := by
  refine wp_perform trivial fun s₁ frame _ _ _ s₂ hexec => ?_
  obtain rfl : s₂ = s₁.done (some failure) := hexec
  obtain ⟨hinv, hlater⟩ := done_spec failure s₁ (0 + frame)
  refine ⟨0, hinv, hlater, wp_pure fun s₃ hlater' => ⟨rfl, ?_⟩⟩
  intro hnone
  cases hlater'.ctx hnone

theorem wp_next (s : State) : logic.wp (system res) worker.next turnPost s 0 := by
  refine wp_perform trivial fun s₁ frame _ hinv err s₂ hexec => ?_
  obtain ⟨rfl, rfl⟩ : err = s₁.ctx ∧ s₂ = s₁ := hexec
  refine ⟨0, hinv, .refl _, ?_⟩
  cases hctx : s₂.ctx with
  | some failure =>
    exact wp_finish_none fun hnone => by simp [hctx] at hnone
  | none =>
    refine wp_perform trivial fun s₃ frame _ hinv _ s₄ hexec => ?_
    obtain rfl : s₄ = { s₃ with nchecked := s₃.nchecked + 1 } := hexec
    exact ⟨0, ⟨hinv.ctx, hinv.all⟩, ⟨id, id⟩, wp_pure fun _ _ => rfl⟩

theorem wp_worker (i : Fin nVerifyWorkers) (s : State) :
    logic.wp (system res) (worker i) turnPost s 0 := by
  refine wp_perform trivial fun s₁ frame _ hinv job s₂ hexec => ?_
  cases job with
  | none =>
    obtain ⟨hwork, hclosed, rfl⟩ : s₁.work = [] ∧ s₁.closed ∧ s₂ = s₁ := hexec
    exact ⟨0, hinv, .refl _, wp_finish_none fun _ => ⟨hclosed, hwork⟩⟩
  | some job =>
    obtain ⟨rest, hwork, rfl⟩ :
        ∃ rest, s₁.work = job :: rest ∧ s₂ = { s₁ with work := rest } := hexec
    obtain ⟨hinv', hlater⟩ := receive_spec hwork hinv
    rw [← cons_add] at hinv'
    refine ⟨job ::ₘ 0, hinv', hlater, ?_⟩
    refine wp_perform trivial fun s₃ frame _ hinv err s₄ hexec => ?_
    rw [cons_add] at hinv
    obtain ⟨hlater, hinv'⟩ := verifyFile_spec hexec hinv
    cases err with
    | none => exact ⟨0, hinv', hlater, wp_next s₄⟩
    | some failure =>
      rw [if_neg nofun, ← cons_add] at hinv'
      refine ⟨job ::ₘ 0, hinv', hlater, ?_⟩
      refine wp_perform trivial fun s₅ frame _ hinv err s₆ hexec => ?_
      obtain ⟨rfl, rfl⟩ : err = some failure ∧ s₆ = s₅ := hexec
      exact ⟨job ::ₘ 0, hinv, .refl _, wp_finish_some failure _ _⟩

end Goroutines

/-! ## The whole run -/

def idle : Option (Fin nVerifyWorkers) → Multiset MustCheck → Prop
  | none, _ => False
  | some _, inHand => inHand = 0

def ended : Option (Fin nVerifyWorkers) → Option Failure → State → Multiset MustCheck → Prop
  | none, _, _, inHand => inHand = 0
  | some _, err, s, inHand => Ended err s inHand

section Runs

variable {res} {disk : Bytes → Except Failure OpenFile} {tree : Tree}
  {dst : Bytes} {pool : VerifyPool}

theorem start_safe : logic.PoolSafe (system res) idle ended (start disk tree dst) := by
  refine ⟨fun _ => 0, ?_, ?_⟩
  · rw [Finset.sum_const_zero]
    exact ⟨by simp [start, initial], fun _ => rfl⟩
  · intro i
    cases i with
    | none => exact .once (wp_producer tree dst _)
    | some i =>
      refine .loop_forever ?_ rfl
      rintro _ rfl
      exact wp_worker i _

/-- If the caller does not cancel the context, success means that every file the
traversal came to is verified. -/
theorem verified_of_returns
    (h : Relation.ReflTransGen (Pool.Step (system res)) (start disk tree dst) pool)
    (hreturns : Returns pool none) (hcaller : pool.state.callerDone = false) :
    ∀ job ∈ pool.state.visited, job ∈ pool.state.verified := by
  obtain ⟨⟨results, hfinished⟩, herr⟩ := hreturns
  obtain ⟨hsafe, -⟩ := start_safe.steps (fun _ _ _ hinv henv => env_spec henv hinv) h
  obtain ⟨own, hinv, hended⟩ := hsafe.finished hfinished
  have hown : ∀ i, own i = 0 := by
    intro i
    cases i with
    | none => exact hended none
    | some i => exact (hended (some i)).1
  have hctx : pool.state.ctx = none := hinv.ctx.mpr ⟨herr, hcaller⟩
  obtain ⟨-, hwork⟩ := (hended (some ⟨0, by decide⟩)).2 hctx
  have hall := hinv.all hctx
  rw [Finset.sum_eq_zero fun i _ => hown i, hwork, zero_add, coe_nil, zero_add] at hall
  intro job hjob
  exact (coe_eq_coe.mp hall).mem_iff.mp hjob

end Runs

/-! ## Runs on empty files -/

section Samples

/-- All trees load, all files are selected and the channel takes what is sent.  The caller
may cancel the context. -/
def playback : Playback (system res) where
  answer
  | .inl (.loadTree _), s => some ⟨(none, s), rfl⟩
  | .inl (.error _ failure), s => some ⟨(some failure, s), rfl, rfl⟩
  | .inl (.selectFilter _ _ _), s => some ⟨((true, true), s), rfl⟩
  | .inl (.visitNode ⟨node, target, _⟩), s =>
    let job : MustCheck := ⟨node, target⟩
    if hsend : node.type = .file ∧ s.closed = false ∧ s.work.length < 2 * nVerifyWorkers then
      some ⟨(none, { s with work := s.work ++ [job], visited := job :: s.visited }), by
        change visitNode _ _ _ _
        rw [visitNode, if_neg (not_not.mpr hsend.1)]
        exact .inr ⟨hsend.2.1, hsend.2.2, rfl, rfl⟩⟩
    else none
  | .inl (.enterDir _), _ => none
  | .inl (.leaveDir _), _ => none
  | .inr .close, s => some ⟨((), { s with closed := true }), rfl⟩
  | .inr (.done err), s => some ⟨((), s.done err), rfl⟩
  | .inr .receive, s =>
    match hwork : s.work with
    | job :: rest => some ⟨(some job, { s with work := rest }), rest, hwork, rfl⟩
    | [] => if hclosed : s.closed then some ⟨(none, s), hwork, hclosed, rfl⟩ else none
  | .inr (.verifyFile worker job), s =>
    let result := res.verifyFile (s.disk job.path) job.path job.node (s.bufs worker)
    some ⟨(result.2,
      { s with
        bufs := Function.update s.bufs worker result.1
        verified := if result.2 = none then job :: s.verified else s.verified }), rfl, rfl⟩
  | .inr .ctxErr, s => some ⟨(s.ctx, s), rfl, rfl⟩
  | .inr .addChecked, s => some ⟨((), { s with nchecked := s.nchecked + 1 }), rfl⟩
  interfere s :=
    some ⟨{ s with callerDone := true, ctx := some (s.ctx.getD .canceled) },
      .cancel .canceled (.inl rfl)⟩

def emptyDisk (_ : Bytes) : Except Failure OpenFile := .ok ⟨[], none, fun _ => none⟩

def emptyFile (name : UInt8) : Node := (sampleFile [name] 0 []).toNode

def ofFiles : List Node → Nodes
  | [] => .nil
  | node :: rest => .cons node .absent (ofFiles rest)

def emptyFiles (count : Nat) : List Node :=
  (List.range count).map fun i => emptyFile (UInt8.ofNat (97 + i))

def sampleDst : Bytes := ascii "/dst"

def sampleTree (count : Nat) : Tree := .mk (.ofNat 1) (ofFiles (emptyFiles count))

def sampleVerifier : Verifier where
  hash _ := .null
  lookupBlobSize _ := none

def workerTurns : List (Turn (Option (Fin nVerifyWorkers))) :=
  (List.finRange nVerifyWorkers).map fun i => .thread (some i)

/-- The caller cancels the context when nine files have been sent.  The eight
workers verify a file each and end without an error. -/
theorem cancelled_unverified :
    ∃ pool, Relation.ReflTransGen (Pool.Step (system sampleVerifier))
        (start emptyDisk (sampleTree 9) sampleDst) pool ∧
      Returns pool none ∧
      ∃ job ∈ pool.state.visited, job ∉ pool.state.verified := by
  obtain ⟨pool, hsteps, hended, herr, hjob⟩ := Pool.exists_steps
    (playback sampleVerifier) (start emptyDisk (sampleTree 9) sampleDst)
    (.thread none :: .environment :: workerTurns)
    (fun pool => (∀ i, pool.result? i = some none) ∧ pool.state.err = none ∧
      ∃ job ∈ pool.state.visited, job ∉ pool.state.verified) (by decide +kernel)
  exact ⟨pool, hsteps, ⟨⟨_, Pool.finished_of_result? hended⟩, herr⟩, hjob⟩

/-- Two workers verify three files. -/
theorem verified_of_returns_three :
    ∃ pool, Relation.ReflTransGen (Pool.Step (system sampleVerifier))
        (start emptyDisk (sampleTree 3) sampleDst) pool ∧
      Returns pool none ∧ pool.state.callerDone = false ∧
      pool.state.visited.length = 3 ∧
      ∀ job ∈ pool.state.visited, job ∈ pool.state.verified := by
  obtain ⟨pool, hsteps, hended, herr, hcaller, hvisited⟩ := Pool.exists_steps
    (playback sampleVerifier) (start emptyDisk (sampleTree 3) sampleDst)
    (.thread none :: .thread (some ⟨0, by decide⟩) :: .thread (some ⟨1, by decide⟩) ::
      .thread (some ⟨0, by decide⟩) :: workerTurns)
    (fun pool => (∀ i, pool.result? i = some none) ∧ pool.state.err = none ∧
      pool.state.callerDone = false ∧ pool.state.visited.length = 3) (by decide +kernel)
  have hreturns : Returns pool none := ⟨⟨_, Pool.finished_of_result? hended⟩, herr⟩
  exact ⟨pool, hsteps, hreturns, hcaller, hvisited, verified_of_returns hsteps hreturns hcaller⟩

end Samples

end VerifyFiles

end Rapi.Restorer
