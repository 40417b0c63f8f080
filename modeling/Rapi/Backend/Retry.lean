import Rapi.Foundation.Bytes
import Rapi.Foundation.Retry

/-!
# A backend that retries

`RetryBackend` repeats the operations of another backend.  The attempts of one
operation share state: a listing remembers the names it has handled and the
error of the callback, and the reader of an upload keeps its position.  Every
attempt may fail at any point, and may have done part of its work by then.
-/

namespace Rapi.Backend

open Foundation List

variable {ε τ : Type}

/-- `permanent` looks for an error that must not be retried inside another
one. -/
structure RetryBackend (ε : Type) where
  permanent : ε → Option ε

/-- Nothing is done when the context is done already. -/
def RetryBackend.retry (be : RetryBackend ε) {α σ : Type} (ctx : Option ε)
    (ctxErr : α → σ → Option ε) (f : α → σ → Option ε × σ) (attempt : α)
    (tape : List α) (s : σ) : Retried α σ ε :=
  match ctx with
  | some err => ⟨some err, s, none⟩
  | none => retryNotify f be.permanent ctxErr attempt tape s

/-! ## Listing -/

structure FileInfo where
  size : Int
  name : Bytes
  deriving DecidableEq

/-- What the underlying `List` does: the files it comes to, and how it ends when
the callback does not fail.  `ctx` is the error of the caller's context after
the attempt. -/
structure ListAttempt (ε : Type) where
  files : List FileInfo
  result : Option ε
  ctx : Option ε

/-- The underlying `List` stops at an error of the callback and returns it. -/
def backendList {σ : Type} (fn : FileInfo → σ → Option ε × σ)
    (result : Option ε) : List FileInfo → σ → Option ε × σ
  | [], s => (result, s)
  | fi :: rest, s =>
    match fn fi s with
    | (some err, s') => (some err, s')
    | (none, s') => backendList fn result rest s'

/-- `calls` lists the calls of the callback of the caller, with their results;
`handler` is what that callback works on. -/
structure Listing (ε τ : Type) where
  listed : List Bytes
  innerErr : Option ε
  canceled : Bool
  handler : τ
  calls : List (FileInfo × Option ε)

def Listing.handle (fn : FileInfo → τ → Option ε × τ) (fi : FileInfo)
    (s : Listing ε τ) : Option ε × Listing ε τ :=
  if fi.name ∈ s.listed then (none, s)
  else
    let (err, handler) := fn fi s.handler
    (err,
      { listed := fi.name :: s.listed
        innerErr := err
        canceled := s.canceled || err.isSome
        handler := handler
        calls := s.calls ++ [(fi, err)] })

/-- The error of the callback takes precedence. -/
def RetryBackend.list (be : RetryBackend ε) (canceled : ε) (ctx : Option ε)
    (fn : FileInfo → τ → Option ε × τ) (attempt : ListAttempt ε) (tape : List (ListAttempt ε))
    (handler : τ) : Retried (ListAttempt ε) (Listing ε τ) ε :=
  let retried := be.retry ctx
    (fun attempt s => attempt.ctx.or (if s.canceled then some canceled else none))
    (fun attempt => backendList (Listing.handle fn) attempt.result attempt.files)
    attempt tape ⟨[], none, false, handler, []⟩
  { retried with err := retried.state.innerErr.or retried.err }

section ListSpec

def Listing.names (s : Listing ε τ) : List Bytes := s.calls.map fun call => call.1.name

structure Listing.Ongoing (s : Listing ε τ) : Prop where
  listed : ∀ name, name ∈ s.listed ↔ name ∈ s.names
  once : s.names.Nodup
  succeeded : ∀ call ∈ s.calls, call.2 = none
  innerErr : s.innerErr = none

structure Listing.Aborted (s : Listing ε τ) : Prop where
  once : s.names.Nodup
  canceled : s.canceled
  failed : ∃ before fi err, s.calls = before ++ [(fi, some err)] ∧
    (∀ call ∈ before, call.2 = none) ∧ s.innerErr = some err

variable {fn : FileInfo → τ → Option ε × τ} {fi : FileInfo} {s s' : Listing ε τ}

theorem Listing.nodup_names_snoc (hs : s.Ongoing) (hnew : fi.name ∉ s.listed) (err : Option ε) :
    ((s.calls ++ [(fi, err)]).map fun call => call.1.name).Nodup := by
  rw [hs.listed] at hnew
  rw [map_append, nodup_append]
  refine ⟨hs.once, nodup_singleton _, ?_⟩
  rintro name hname _ hfi rfl
  rw [mem_singleton.mp hfi] at hname
  exact hnew hname

theorem Listing.handle_none (hs : s.Ongoing) (h : s.handle fn fi = (none, s')) :
    s'.Ongoing ∧ s.listed ⊆ s'.listed ∧ fi.name ∈ s'.listed := by
  unfold Listing.handle at h
  split at h
  · rename_i hlisted
    cases h
    exact ⟨hs, List.Subset.refl _, hlisted⟩
  · rename_i hnew
    obtain ⟨hnone, rfl⟩ := Prod.mk.inj h
    refine ⟨⟨?_, nodup_names_snoc hs hnew _, ?_, hnone⟩, subset_cons_self _ _, mem_cons_self⟩
    · intro name
      simp [names, hs.listed, or_comm]
    · intro call hcall
      rcases mem_append.mp hcall with hcall | hcall
      · exact hs.succeeded call hcall
      · rw [mem_singleton.mp hcall]
        exact hnone

theorem Listing.handle_some {err : ε} (hs : s.Ongoing)
    (h : s.handle fn fi = (some err, s')) : s'.Aborted := by
  unfold Listing.handle at h
  split at h
  · cases h
  · rename_i hnew
    obtain ⟨hsome, rfl⟩ := Prod.mk.inj h
    refine ⟨nodup_names_snoc hs hnew _, by simp [hsome], ?_⟩
    exact ⟨s.calls, fi, err, by rw [hsome], hs.succeeded, hsome⟩

theorem backendList_none {files : List FileInfo} {result : Option ε} (hs : s.Ongoing)
    (h : backendList (Listing.handle fn) result files s = (none, s')) :
    s'.Ongoing ∧ s.listed ⊆ s'.listed ∧ ∀ fi ∈ files, fi.name ∈ s'.listed := by
  induction files generalizing s with
  | nil =>
    obtain ⟨-, rfl⟩ := Prod.mk.inj h
    exact ⟨hs, List.Subset.refl _, nofun⟩
  | cons fi rest ih =>
    rw [backendList] at h
    split at h
    · cases h
    · rename_i mid hhandle
      obtain ⟨hmid, hsub, hfi⟩ := Listing.handle_none hs hhandle
      obtain ⟨hs', hsub', hrest⟩ := ih hmid h
      exact ⟨hs', List.Subset.trans hsub hsub', forall_mem_cons.mpr ⟨hsub' hfi, hrest⟩⟩

theorem backendList_some {files : List FileInfo} {result : Option ε} {err : ε} (hs : s.Ongoing)
    (h : backendList (Listing.handle fn) result files s = (some err, s')) :
    s'.Ongoing ∨ s'.Aborted := by
  induction files generalizing s with
  | nil =>
    obtain ⟨-, rfl⟩ := Prod.mk.inj h
    exact Or.inl hs
  | cons fi rest ih =>
    rw [backendList] at h
    split at h
    · rename_i hhandle
      cases h
      exact Or.inr (Listing.handle_some hs hhandle)
    · rename_i hhandle
      exact ih (Listing.handle_none hs hhandle).1 h

structure Listing.Over (retried : Retried (ListAttempt ε) (Listing ε τ) ε) : Prop where
  state : retried.state.Ongoing ∨ retried.state.Aborted
  complete : retried.err = none → retried.state.Ongoing ∧
    ∃ attempt, retried.last = some attempt ∧
      ∀ fi ∈ attempt.files, fi.name ∈ retried.state.listed

variable (fn) in
theorem retry_over (be : RetryBackend ε) (canceled : ε) (ctx : Option ε)
    (attempt : ListAttempt ε) (tape : List (ListAttempt ε)) (hs : s.Ongoing) :
    Listing.Over (be.retry ctx (fun attempt (s : Listing ε τ) =>
        attempt.ctx.or (if s.canceled then some canceled else none))
      (fun attempt => backendList (Listing.handle fn) attempt.result attempt.files)
      attempt tape s) := by
  cases ctx with
  | some err => exact ⟨Or.inl hs, nofun⟩
  | none =>
    apply retryNotify_rule (I := Listing.Ongoing) _ _ _ _ _ _ _ hs
    · intro attempt s s' hs hop
      obtain ⟨hs', -, hall⟩ := backendList_none hs hop
      exact ⟨Or.inl hs', fun _ => ⟨hs', attempt, rfl, hall⟩⟩
    · intro attempt s err s' hs hop
      have hs' := backendList_some hs hop
      refine ⟨fun e => ⟨hs', nofun⟩, fun hctx => ?_⟩
      rcases hs' with hs' | hs'
      · exact hs'
      · simp [hs'.canceled] at hctx

theorem list_over (be : RetryBackend ε) (canceled : ε) (ctx : Option ε)
    (attempt : ListAttempt ε) (tape : List (ListAttempt ε)) (handler : τ) :
    Listing.Over (be.list canceled ctx fn attempt tape handler) := by
  have hstart : Listing.Ongoing (⟨[], none, false, handler, []⟩ : Listing ε τ) :=
    ⟨fun _ => Iff.rfl, .nil, nofun, rfl⟩
  have hover := retry_over fn be canceled ctx attempt tape hstart
  refine ⟨hover.state, fun herr => hover.complete ?_⟩
  exact (Option.or_eq_none_iff.mp herr).2

theorem Listing.Ongoing.no_error (h : s.Ongoing) {before after fi err} :
    s.calls ≠ before ++ (fi, some err) :: after := by
  intro hcalls
  have hnone := h.succeeded (fi, some err) (by rw [hcalls]; simp)
  cases hnone

theorem Listing.Aborted.last (h : s.Aborted) {before after fi err}
    (hcalls : s.calls = before ++ (fi, some err) :: after) :
    after = [] ∧ s.innerErr = some err := by
  obtain ⟨others, other, last, hlast, hok, hinner⟩ := h.failed
  rw [hcalls] at hlast
  rcases eq_nil_or_concat after with rfl | ⟨init, call, rfl⟩
  · obtain ⟨-, hsame⟩ := append_inj' hlast rfl
    simp only [List.cons.injEq, Prod.mk.injEq, Option.some.injEq, and_true] at hsame
    rw [hsame.2]
    exact ⟨rfl, hinner⟩
  · -- an earlier call would have failed
    rw [concat_eq_append, ← cons_append, ← append_assoc] at hlast
    obtain ⟨rfl, -⟩ := append_inj' hlast rfl
    cases hok (fi, some err) (by simp)

end ListSpec

/-! ## Saving -/

structure Reader where
  content : Bytes
  position : Nat

/-- What happens in one attempt: errors of `Rewind`, of the underlying `Save` and
`Remove`, and how far a failed `Save` has come. -/
structure SaveAttempt (ε : Type) where
  rewind : Option ε
  save : Option ε
  consumed : Nat
  stored : Option Bytes
  removed : Bool
  ctx : Option ε

/-- `stored` is the file under the handle, and `given` the position of the
reader in the last call of the underlying `Save`. -/
structure Upload where
  rd : Reader
  stored : Option Bytes
  given : Option Nat

/-- The underlying `Save` stores what it gets from the reader.  When it fails,
part of the reader may be consumed, and anything may be stored. -/
def backendSave (attempt : SaveAttempt ε) (s : Upload) : Option ε × Upload :=
  match attempt.save with
  | none =>
    (none,
      { rd := { s.rd with position := s.rd.content.length }
        stored := some (s.rd.content.drop s.rd.position)
        given := some s.rd.position })
  | some err =>
    (some err,
      { rd := { s.rd with position := s.rd.position + attempt.consumed }
        stored := attempt.stored
        given := some s.rd.position })

def saveOnce (attempt : SaveAttempt ε) (s : Upload) : Option ε × Upload :=
  match attempt.rewind with
  | some err => (some err, s)
  | none =>
    match backendSave attempt { s with rd := { s.rd with position := 0 } } with
    | (none, s') => (none, s')
    | (some err, s') =>
      -- whether the file could be removed does not matter
      (some err, if attempt.removed then { s' with stored := none } else s')

def RetryBackend.save (be : RetryBackend ε) (ctx : Option ε) (rd : Reader) (stored : Option Bytes)
    (attempt : SaveAttempt ε) (tape : List (SaveAttempt ε)) : Retried (SaveAttempt ε) Upload ε :=
  be.retry ctx (fun attempt _ => attempt.ctx) saveOnce attempt tape ⟨rd, stored, none⟩

theorem saveOnce_spec {attempt : SaveAttempt ε} {s s' : Upload}
    {err : Option ε} (h : saveOnce attempt s = (err, s')) : s'.rd.content = s.rd.content ∧
      (err = none → s'.given = some 0 ∧ s'.stored = some s.rd.content) := by
  unfold saveOnce backendSave at h
  split at h
  · cases h
    exact ⟨rfl, nofun⟩
  · split at h
    · rename_i hsave
      split at hsave
      · cases hsave
        cases h
        exact ⟨rfl, fun _ => ⟨rfl, rfl⟩⟩
      · cases hsave
    · rename_i hsave
      split at hsave
      · cases hsave
      · cases hsave
        cases h
        refine ⟨?_, nofun⟩
        split <;> rfl

theorem RetryBackend.save_spec (be : RetryBackend ε) (ctx : Option ε) (rd : Reader)
    (stored : Option Bytes) (attempt : SaveAttempt ε) (tape : List (SaveAttempt ε))
    (h : (be.save ctx rd stored attempt tape).err = none) :
    (be.save ctx rd stored attempt tape).state.given = some 0 ∧
      (be.save ctx rd stored attempt tape).state.stored = some rd.content := by
  unfold RetryBackend.save at h ⊢
  cases ctx with
  | some err => cases h
  | none =>
    revert h
    apply retryNotify_rule (I := fun s : Upload => s.rd.content = rd.content)
      (Q := fun saved => saved.err = none → saved.state.given = some 0 ∧
        saved.state.stored = some rd.content) _ _ _ _ _ _ _ rfl
    · intro attempt s s' hs hop _
      obtain ⟨-, hsaved⟩ := saveOnce_spec hop
      rw [← hs]
      exact hsaved rfl
    · intro attempt s err s' hs hop
      exact ⟨nofun, fun _ => (saveOnce_spec hop).1.trans hs⟩

/-- The names of a listing are handled once, and a file is saved as a whole. -/
theorem retried_once (be : RetryBackend ε) :
    (∀ canceled ctx (fn : FileInfo → τ → Option ε × τ) attempt tape handler,
      let listed := be.list canceled ctx fn attempt tape handler
      (∀ name, listed.state.names.count name ≤ 1) ∧
      (listed.err = none → ∃ last, listed.last = some last ∧
        ∀ fi ∈ last.files, listed.state.names.count fi.name = 1) ∧
      ∀ before fi err after, listed.state.calls = before ++ (fi, some err) :: after →
        after = [] ∧ listed.err = some err) ∧
    ∀ ctx rd stored attempt tape,
      let saved := be.save ctx rd stored attempt tape
      saved.err = none → saved.state.given = some 0 ∧ saved.state.stored = some rd.content := by
  refine ⟨fun canceled ctx fn attempt tape handler => ?_, be.save_spec⟩
  intro listed
  have hover : Listing.Over listed := list_over be canceled ctx attempt tape handler
  have hnodup : listed.state.names.Nodup := hover.state.elim (·.once) (·.once)
  refine ⟨nodup_iff_count_le_one.mp hnodup, fun herr => ?_, ?_⟩
  · obtain ⟨hongoing, last, hlast, hall⟩ := hover.complete herr
    refine ⟨last, hlast, fun fi hfi => ?_⟩
    exact count_eq_one_of_mem hnodup ((hongoing.listed _).mp (hall fi hfi))
  · intro before fi err after hcalls
    rcases hover.state with hongoing | haborted
    · exact absurd hcalls hongoing.no_error
    · obtain ⟨hafter, hinner⟩ := haborted.last hcalls
      refine ⟨hafter, ?_⟩
      change listed.state.innerErr.or _ = _
      rw [hinner, Option.some_or]

/-- The first attempt fails after one file. -/
theorem retried_once_after_failure :
    let listed := (RetryBackend.mk fun _ : Nat => none).list 0 none
      (fun fi (seen : List Bytes) => (none, fi.name :: seen))
      ⟨[⟨1, [97]⟩], some 1, none⟩ [⟨[⟨1, [97]⟩, ⟨2, [98]⟩], none, none⟩] []
    listed.err = none ∧ listed.state.handler = [[98], [97]] ∧
      ∃ last, listed.last = some last ∧
        ∀ fi ∈ last.files, listed.state.names.count fi.name = 1 :=
  ⟨rfl, rfl, ((retried_once (RetryBackend.mk fun _ : Nat => none)).1 _ _ _ _ _ _).2.1 rfl⟩

end Rapi.Backend
