import Rapi.Cache.Backend

/-!
# What the cache delivers

A cached file has the content of the file of that name, and the backend has it
too: files are cached while they are loaded or saved, and no `Remove` runs at
that time.  A `Remove` that fails half way is the exception.
-/

namespace Rapi.Cache

open Foundation Function

/-- The backend has the file, or a `Remove` of it failed half way. -/
def State.Held (s : State) (file : File) : Prop := s.backend file ∨ s.halfRemoved file

variable (content : File → Bytes)

/-- How a load goes on after it removed a file from the cache. -/
def AfterRemove (next : LoadPhase) : Prop := next = .register ∨ next = .delegate ∨ next = .finish

def PhaseOk (s : State) : Phase → Prop
  | .load h _ _ (.store data) => data = content h.file ∧ s.Held h.file
  | .load h length offset (.consume source data) =>
    data = rangeOf (content h.file) length offset ∧ s.Held h.file ∧
    (source = .cache → Crypto.extension < (content h.file).length)
  | .load _ _ _ (.remove next) => AfterRemove next
  | .save h .backend => s.removed h.file = false
  | .save h _ => s.Held h.file
  | .remove h .cache => s.backend h.file = false
  | _ => True

/-- The load delivered what the backend has, unless a `Remove` of the file failed
half way.  It was served by the backend if the file was removed or is short. -/
structure Delivers (o : Outcome) : Prop where
  exact : ∀ data, o.delivered = some data → data = rangeOf (content o.file) o.length o.offset ∧
    (o.halfRemoved = false → o.held)
  removed : o.removed → o.source = .backend
  short : (content o.file).length ≤ Crypto.extension → o.source = .backend

structure Sound (s : State) : Prop where
  cached : ∀ file data, s.cache file = some data → data = content file ∧ canBeCached file.type ∧
    (s.Held file ∨ ∃ j h, s.calls j = .remove h .cache ∧ h.file = file)
  removed : ∀ file, s.removed file → ¬ s.Held file ∧ s.cache file = none
  calls : ∀ i, PhaseOk content s (s.calls i)
  exclusive : ∀ i j file, i ≠ j → (s.calls i).removes file → (s.calls j).uses file = false
  outcomes : ∀ o ∈ s.outcomes, Delivers content o

theorem sound_start (backend cached : File → Bool) :
    Sound content (start content backend cached) where
  cached file data hdata := by
    simp only [start] at hdata
    split at hdata
    · rename_i hcond
      simp only [Bool.and_eq_true] at hcond
      cases hdata
      exact ⟨rfl, hcond.2, .inl (.inl hcond.1.1)⟩
    · cases hdata
  removed file hremoved := by cases hremoved
  calls i := trivial
  exclusive i j file hne hremoves := by cases hremoves
  outcomes o ho := by cases ho

variable {content}
variable {s t : State} {i : Nat} {h : Handle} {length offset : Nat}

/-! ## The parts of the state -/

@[simp]
theorem setCall_calls_self (s : State) (i : Nat) (phase : Phase) :
    (s.setCall i phase).calls i = phase := by
  simp [State.setCall]

theorem setCall_calls_ne (s : State) {i j : Nat} (phase : Phase) (hne : j ≠ i) :
    (s.setCall i phase).calls j = s.calls j := by
  simp [State.setCall, hne]

theorem PhaseOk.mono {phase : Phase} (hok : PhaseOk content s phase)
    (hheld : ∀ file, phase.uses file → s.Held file → t.Held file)
    (hremoved : ∀ file, phase.uses file → s.removed file = false →
      t.removed file = false) (hbackend : ∀ file, phase.removes file → s.backend file = false →
      t.backend file = false) : PhaseOk content t phase := by
  match phase with
  | .load h _ _ (.store _) => exact ⟨hok.1, hheld _ (by simp [Phase.uses]) hok.2⟩
  | .load h _ _ (.consume _ _) => exact ⟨hok.1, hheld _ (by simp [Phase.uses]) hok.2.1, hok.2.2⟩
  | .save h .backend => exact hremoved _ (by simp [Phase.uses]) hok
  | .save h .store => exact hheld _ (by simp [Phase.uses]) hok
  | .save h .remove => exact hheld _ (by simp [Phase.uses]) hok
  | .idle => trivial
  | .returned => trivial
  | .stat _ _ => trivial
  | .remove _ .backend => trivial
  | .remove _ .cache => exact hbackend _ (by simp [Phase.removes]) hok
  | .load _ _ _ .lookup => trivial
  | .load _ _ _ (.waitForFinish _) => trivial
  | .load _ _ _ .has => trivial
  | .load _ _ _ .load => trivial
  | .load _ _ _ .register => trivial
  | .load _ _ _ (.waitForOther _) => trivial
  | .load _ _ _ .hasAgain => trivial
  | .load _ _ _ .download => trivial
  | .load _ _ _ .finish => trivial
  | .load _ _ _ .unregister => trivial
  | .load _ _ _ .loadOrDelegate => trivial
  | .load _ _ _ .delegate => trivial
  | .load _ _ _ (.remove _) => exact hok

namespace Sound

variable (hs : Sound content s)

include hs

theorem held_of_cached {file : File} {data : Bytes} (i : Nat) (huses : (s.calls i).uses file)
    (hcall : ∀ h, s.calls i ≠ .remove h .cache) (hdata : s.cache file = some data) :
    data = content file ∧ s.Held file := by
  obtain ⟨hcontent, -, hheld⟩ := hs.cached file data hdata
  refine ⟨hcontent, ?_⟩
  rcases hheld with hheld | ⟨j, h, hj, rfl⟩
  · exact hheld
  · have hne : j ≠ i := by
      rintro rfl
      exact hcall h hj
    have hunused := hs.exclusive j i h.file hne (by simp [hj, Phase.removes])
    rw [huses] at hunused
    cases hunused

/-! ## Changes of one part -/

theorem setCall {phase : Phase} (hok : PhaseOk content s phase)
    (hremoves : ∀ j file, i ≠ j → phase.removes file →
      (s.calls j).uses file = false) (huses : ∀ j file, j ≠ i → (s.calls j).removes file →
      phase.uses file = false) (hcall : ∀ h, s.calls i ≠ .remove h .cache) :
    Sound content (s.setCall i phase) where
  cached file data hdata := by
    obtain ⟨hcontent, htype, hheld⟩ := hs.cached file data hdata
    refine ⟨hcontent, htype, ?_⟩
    rcases hheld with hheld | ⟨j, h, hj, hfile⟩
    · exact .inl hheld
    · have hne : j ≠ i := by
        rintro rfl
        exact hcall h hj
      exact .inr ⟨j, h, (setCall_calls_ne s phase hne).trans hj, hfile⟩
  removed := hs.removed
  calls j := by
    by_cases hj : j = i
    · subst hj
      rw [setCall_calls_self]
      exact hok
    · rw [setCall_calls_ne s phase hj]
      exact hs.calls j
  exclusive j k file hne hj := by
    by_cases hji : j = i
    · subst hji
      rw [setCall_calls_self] at hj
      rw [setCall_calls_ne s phase hne.symm]
      exact hremoves k file hne hj
    · rw [setCall_calls_ne s phase hji] at hj
      by_cases hki : k = i
      · subst hki
        rw [setCall_calls_self]
        exact huses j file hne hj
      · rw [setCall_calls_ne s phase hki]
        exact hs.exclusive j k file hne hj
  outcomes := hs.outcomes

theorem goOn {phase : Phase} (hok : PhaseOk content s phase)
    (hremoves : ∀ file, phase.removes file = false)
    (huses : ∀ file, phase.uses file = (s.calls i).uses file)
    (hcall : ∀ h, s.calls i ≠ .remove h .cache) : Sound content (s.setCall i phase) := by
  refine hs.setCall hok ?_ ?_ hcall
  · intro j file _ hphase
    rw [hremoves file] at hphase
    cases hphase
  · intro j file hne hj
    rw [huses file]
    exact hs.exclusive j i file hne hj

theorem setLoad {phase : LoadPhase} (next : LoadPhase)
    (hcall : s.calls i = .load h length offset phase)
    (hok : PhaseOk content s (.load h length offset next)) :
    Sound content (s.setCall i (.load h length offset next)) := by
  refine hs.goOn hok (fun _ => rfl) ?_ (by simp [hcall])
  intro file
  rw [hcall]
  rfl

theorem setReturned (hcall : ∀ h, s.calls i ≠ .remove h .cache) :
    Sound content (s.setCall i .returned) := hs.setCall trivial nofun (fun _ _ _ _ => rfl) hcall

theorem setCache_none (file : File) : Sound content (s.setCache file none) where
  cached file' data hdata := by
    by_cases hfile : file' = file
    · subst hfile
      simp [State.setCache] at hdata
    · simp only [State.setCache, update_of_ne hfile] at hdata
      exact hs.cached file' data hdata
  removed file' hremoved := by
    obtain ⟨hheld, hcache⟩ := hs.removed file' hremoved
    refine ⟨hheld, ?_⟩
    by_cases hfile : file' = file
    · subst hfile
      simp [State.setCache]
    · simp [State.setCache, hfile, hcache]
  calls := hs.calls
  exclusive := hs.exclusive
  outcomes := hs.outcomes

theorem setCache_content (hheld : s.Held h.file) (htype : canBeCached h.type) :
    Sound content (s.setCache h.file (some (content h.file))) where
  cached file data hdata := by
    by_cases hfile : file = h.file
    · subst hfile
      simp only [State.setCache, update_self, Option.some.injEq] at hdata
      exact ⟨hdata.symm, htype, .inl hheld⟩
    · simp only [State.setCache, update_of_ne hfile] at hdata
      exact hs.cached file data hdata
  removed file hremoved := by
    have hfile : file ≠ h.file := by
      rintro rfl
      exact (hs.removed _ hremoved).1 hheld
    obtain ⟨hheld', hcache⟩ := hs.removed file hremoved
    exact ⟨hheld', by simp [State.setCache, hfile, hcache]⟩
  calls := hs.calls
  exclusive := hs.exclusive
  outcomes := hs.outcomes

theorem setChannels (inProgress : Handle → Option Nat) (closed : Nat → Bool) :
    Sound content { s with inProgress := inProgress, closed := closed } where
  cached := hs.cached
  removed := hs.removed
  calls := hs.calls
  exclusive := hs.exclusive
  outcomes := hs.outcomes

theorem cacheRemove (h : Handle) (answer : Answer) : Sound content (s.cacheRemove h answer).1 := by
  unfold State.cacheRemove
  split
  · cases answer with
    | ok | failAfter => exact hs.setCache_none h.file
    | fail => exact hs
  · exact hs

theorem cacheSave (hheld : s.Held h.file) (answer : Answer) :
    Sound content (s.cacheSave h (content h.file) answer).1 := by
  unfold State.cacheSave
  split
  · rename_i hcond
    split
    · exact hs
    · exact hs.setCache_content hheld hcond.1
  · exact hs

theorem endLoad {source : Source} {delivered : Option Bytes}
    (hcall : ∀ h, s.calls i ≠ .remove h .cache) (hexact : ∀ data, delivered = some data →
      data = rangeOf (content h.file) length offset ∧ s.Held h.file)
    (hcache : source = .cache → s.Held h.file ∧
      Crypto.extension < (content h.file).length) :
    Sound content (endLoad s i h length offset source delivered) := by
  have hreturned := hs.setReturned hcall
  have hsource : ∀ P : Prop, (source = .cache → ¬ P) → P → source = .backend := by
    intro P hnot hP
    cases source with
    | cache => exact absurd hP (hnot rfl)
    | backend => rfl
  constructor
  · exact hreturned.cached
  · exact hreturned.removed
  · exact hreturned.calls
  · exact hreturned.exclusive
  · intro o ho
    rcases List.mem_append.mp ho with ho | ho
    · exact hs.outcomes o ho
    · cases List.mem_singleton.mp ho
      constructor
      · intro data hdata
        obtain ⟨hrange, hheld⟩ := hexact data hdata
        refine ⟨hrange, fun hhalf => hheld.resolve_right ?_⟩
        simp [show s.halfRemoved h.file = false from hhalf]
      · refine hsource _ fun hc hremoved => ?_
        exact (hs.removed _ hremoved).1 (hcache hc).1
      · exact hsource _ fun hc hshort => absurd hshort (not_le.mpr (hcache hc).2)

end Sound

@[simp]
theorem cacheRemove_calls (s : State) (h : Handle) (answer : Answer) :
    (s.cacheRemove h answer).1.calls = s.calls := by
  unfold State.cacheRemove
  split
  · cases answer <;> rfl
  · rfl

@[simp]
theorem cacheSave_calls (s : State) (h : Handle) (data : Bytes)
    (answer : Answer) : (s.cacheSave h data answer).1.calls = s.calls := by
  unfold State.cacheSave
  split
  · split <;> rfl
  · rfl

/-! ## The steps of a load -/

theorem afterRemove_miss (h : Handle) : AfterRemove (miss h) := by
  unfold miss
  split
  · exact .inl rfl
  · exact .inr (.inl rfl)

theorem AfterRemove.phaseOk {next : LoadPhase} (hnext : AfterRemove next) :
    PhaseOk content s (.load h length offset next) := by
  rcases hnext with rfl | rfl | rfl <;> trivial

theorem rangeOf_of_readCached {data range : Bytes}
    (hread : readCached data length offset = some range) :
    range = rangeOf data length offset ∧ Crypto.extension < data.length := by
  unfold readCached at hread
  split at hread
  · cases hread
  · rename_i hlong
    split at hread
    · cases hread
    · cases hread
      exact ⟨rfl, not_le.mp hlong⟩

variable {answer : Answer}

theorem Sound.loadCached {phase next : LoadPhase} (hs : Sound content s)
    (hcall : s.calls i = .load h length offset phase) (hnext : AfterRemove next) :
    PhaseOk content s (.load h length offset (loadCached s h length offset answer next)) := by
  unfold Cache.loadCached
  split
  · cases hcache : s.cache h.file with
    | none => exact hnext.phaseOk
    | some data =>
      obtain ⟨hdata, hheld⟩ :=
        hs.held_of_cached i (by simp [hcall, Phase.uses]) (by simp [hcall]) hcache
      simp only
      cases hread : readCached data length offset with
      | none => exact hnext
      | some range =>
        obtain ⟨hrange, hlong⟩ := rangeOf_of_readCached hread
        rw [hdata] at hrange hlong
        exact ⟨hrange, hheld, fun _ => hlong⟩
  · exact hnext.phaseOk

theorem Sound.loadStep {phase : LoadPhase} (hs : Sound content s)
    (hcall : s.calls i = .load h length offset phase)
    (hstep : loadStep content s i h length offset answer phase = some t) : Sound content t := by
  have hok := hs.calls i
  rw [hcall] at hok
  have hnot : ∀ h, s.calls i ≠ .remove h .cache := by simp [hcall]
  cases phase with
  | lookup =>
    simp only [Cache.loadStep] at hstep
    split at hstep <;> cases hstep
    · exact hs.setLoad _ hcall trivial
    · exact hs.setLoad _ hcall trivial
  | waitForFinish ch | waitForOther ch =>
    simp only [Cache.loadStep] at hstep
    split at hstep <;> cases hstep
    exact hs.setLoad _ hcall trivial
  | has =>
    cases hstep
    refine hs.setLoad _ hcall ?_
    split
    · trivial
    · exact (afterRemove_miss h).phaseOk
  | load =>
    cases hstep
    exact hs.setLoad _ hcall (hs.loadCached hcall (afterRemove_miss h))
  | register =>
    simp only [Cache.loadStep] at hstep
    split at hstep <;> cases hstep
    · exact hs.setLoad _ hcall trivial
    · exact (hs.setLoad .hasAgain hcall trivial).setChannels _ _
  | hasAgain =>
    cases hstep
    refine hs.setLoad _ hcall ?_
    split <;> trivial
  | download =>
    cases hstep
    refine hs.setLoad _ hcall ?_
    split
    · rename_i hcond
      exact ⟨rfl, .inl hcond.1⟩
    · exact .inr (.inr rfl)
  | store data =>
    obtain ⟨rfl, hheld⟩ := hok
    simp only [Cache.loadStep, Option.some.injEq] at hstep
    subst hstep
    have hcall' :=  (congrFun (cacheSave_calls s h (content h.file) answer) i).trans hcall
    refine (hs.cacheSave hheld answer).setLoad _ hcall' ?_
    by_cases hfailed : (s.cacheSave h (content h.file) answer).2 ∨
        answer = .failAfter
    · rw [if_pos hfailed]
      exact .inr (.inr rfl)
    · rw [if_neg hfailed]
      trivial
  | finish =>
    cases hstep
    exact (hs.setLoad .unregister hcall trivial).setChannels _ _
  | unregister =>
    cases hstep
    exact (hs.setLoad .loadOrDelegate hcall trivial).setChannels _ _
  | loadOrDelegate =>
    cases hstep
    exact hs.setLoad _ hcall (hs.loadCached hcall (.inr (.inl rfl)))
  | delegate =>
    simp only [Cache.loadStep] at hstep
    split at hstep <;> cases hstep
    · rename_i hcond
      exact hs.setLoad _ hcall ⟨rfl, .inl hcond.1, nofun⟩
    · exact hs.endLoad hnot nofun nofun
  | consume source data =>
    obtain ⟨hdata, hheld, hlong⟩ := hok
    cases hstep
    refine hs.endLoad hnot ?_ fun hsource => ⟨hheld, hlong hsource⟩
    intro data' hdelivered
    split at hdelivered <;> cases hdelivered
    exact ⟨hdata, hheld⟩
  | remove next =>
    cases hstep
    have hcall' := (congrFun (cacheRemove_calls s h answer) i).trans hcall
    exact (hs.cacheRemove h answer).setLoad next hcall' (AfterRemove.phaseOk hok)

/-! ## The steps of the other calls -/

theorem Sound.saved {phase : SavePhase} (hs : Sound content s)
    (hcall : s.calls i = .save h phase) (hremoved : s.removed h.file = false) :
    Sound content (Cache.saved s h) ∧ (Cache.saved s h).Held h.file := by
  have hfile : (Cache.saved s h).Held h.file := .inl (by simp [Cache.saved])
  have hheld : ∀ file, s.Held file → (Cache.saved s h).Held file := by
    intro file hheld
    by_cases hf : file = h.file
    · exact hf ▸ hfile
    · simpa [Cache.saved, State.Held, hf] using hheld
  refine ⟨?_, hfile⟩
  constructor
  · intro file data hdata
    obtain ⟨hcontent, htype, hrest⟩ := hs.cached file data hdata
    exact ⟨hcontent, htype, hrest.imp_left (hheld file)⟩
  · intro file hfileRemoved
    have hf : file ≠ h.file := by
      rintro rfl
      rw [show (Cache.saved s h).removed h.file = s.removed h.file from rfl,
        hremoved] at hfileRemoved
      cases hfileRemoved
    obtain ⟨hnot, hcache⟩ := hs.removed file hfileRemoved
    refine ⟨?_, hcache⟩
    simpa [Cache.saved, State.Held, hf] using hnot
  · intro j
    refine (hs.calls j).mono (fun file _ => hheld file) (fun _ _ => id) ?_
    intro file hj hbackend
    have hf : file ≠ h.file := by
      rintro rfl
      have hne : j ≠ i := by
        rintro rfl
        simp [hcall, Phase.removes] at hj
      have hunused := hs.exclusive j i h.file hne hj
      simp [hcall, Phase.uses] at hunused
    simpa [Cache.saved, hf] using hbackend
  · exact hs.exclusive
  · exact hs.outcomes

theorem Sound.saveStep {phase : SavePhase} (hs : Sound content s)
    (hcall : s.calls i = .save h phase) : Sound content (saveStep content s i h answer phase) := by
  have hok := hs.calls i
  rw [hcall] at hok
  have hnot : ∀ h, s.calls i ≠ .remove h .cache := by simp [hcall]
  -- whatever the phase, the call goes on with a save of the same file
  have hnext : ∀ {t : State} (next : SavePhase), t.calls = s.calls →
      Sound content t → PhaseOk content t (.save h next) →
      Sound content (t.setCall i (.save h next)) := by
    intro t next hcalls ht hok
    refine ht.goOn hok (fun _ => rfl) ?_ ?_
    · intro file
      rw [hcalls, hcall]
      rfl
    · rw [hcalls]
      exact hnot
  have hreturned : ∀ {t : State}, t.calls = s.calls → Sound content t →
      Sound content (t.setCall i .returned) := by
    intro t hcalls ht
    refine ht.setReturned ?_
    rw [hcalls]
    exact hnot
  cases phase with
  | backend =>
    obtain ⟨hsaved, hheld⟩ := hs.saved hcall hok
    cases answer with
    | ok =>
      simp only [Cache.saveStep]
      split
      · exact hnext .store rfl hsaved hheld
      · exact hreturned rfl hsaved
    | fail => exact hreturned rfl hs
    | failAfter => exact hreturned rfl hsaved
  | store =>
    have hcache := hs.cacheSave hok answer
    have hcalls := cacheSave_calls s h (content h.file) answer
    have hheld : (s.cacheSave h (content h.file) answer).1.Held h.file := by
      unfold State.cacheSave
      split
      · split <;> exact hok
      · exact hok
    simp only [Cache.saveStep]
    split
    · exact hreturned rfl hs
    · generalize s.cacheSave h (content h.file) answer = result at *
      obtain ⟨t, failed⟩ := result
      cases failed with
      | false => exact hreturned hcalls hcache
      | true => exact hnext .remove hcalls hcache hheld
  | remove => exact hreturned (cacheRemove_calls s h answer) (hs.cacheRemove h answer)

theorem Sound.statStep {phase : StatPhase} (hs : Sound content s)
    (hcall : s.calls i = .stat h phase) : Sound content (statStep s i h answer phase) := by
  have hnot : ∀ h, s.calls i ≠ .remove h .cache := by simp [hcall]
  cases phase with
  | backend =>
    simp only [Cache.statStep]
    split
    · exact hs.setCall trivial nofun (fun _ _ _ _ => rfl) hnot
    · exact hs.setReturned hnot
  | remove =>
    refine (hs.cacheRemove h answer).setReturned ?_
    rw [cacheRemove_calls]
    exact hnot

theorem uses_of_removes {phase : Phase} {file : File}
    (hremoves : phase.removes file) : phase.uses file := by
  cases phase with
  | remove => exact hremoves
  | _ => cases hremoves

/-- A step of a `Remove` only touches its own file, which nobody else uses. -/
theorem Sound.ofRemove {phase : RemovePhase} {next : Phase} (hs : Sound content s)
    (hcall : s.calls i = .remove h phase) (hcalls : t.calls = Function.update s.calls i next)
    (hnext : next = .returned ∨ next = .remove h .cache ∧ t.backend h.file = false)
    (hbackend : ∀ file, file ≠ h.file → t.backend file = s.backend file)
    (hhalf : ∀ file, file ≠ h.file → t.halfRemoved file = s.halfRemoved file)
    (hgone : ∀ file, file ≠ h.file → t.removed file = s.removed file)
    (hcache : ∀ file, file ≠ h.file → t.cache file = s.cache file)
    (houtcomes : t.outcomes = s.outcomes)
    (hcached : ∀ data, t.cache h.file = some data → s.cache h.file = some data ∧
      (t.Held h.file ∨ next = .remove h .cache))
    (hremoved : t.removed h.file → ¬ t.Held h.file ∧ t.cache h.file = none) : Sound content t := by
  have hheld : ∀ file, file ≠ h.file → (t.Held file ↔ s.Held file) := by
    intro file hfile
    unfold State.Held
    rw [hbackend file hfile, hhalf file hfile]
  have hself : t.calls i = next := by simp [hcalls]
  have hother : ∀ j, j ≠ i → t.calls j = s.calls j := by
    intro j hj
    simp [hcalls, hj]
  have hfree : ∀ j, i ≠ j → (s.calls j).uses h.file = false := by
    intro j hj
    exact hs.exclusive i j h.file hj (by simp [hcall, Phase.removes])
  have huses : ∀ file, next.uses file → file = h.file := by
    intro file hfile
    rcases hnext with rfl | ⟨rfl, -⟩
    · cases hfile
    · exact (of_decide_eq_true hfile).symm
  have hremoves : ∀ file, next.removes file → file = h.file :=
    fun file hfile => huses file (uses_of_removes hfile)
  constructor
  · intro file data hdata
    by_cases hfile : file = h.file
    · subst hfile
      obtain ⟨hbefore, hrest⟩ := hcached data hdata
      obtain ⟨hcontent, htype, -⟩ := hs.cached h.file data hbefore
      exact ⟨hcontent, htype, hrest.imp_right fun heq => ⟨i, h, hself.trans heq, rfl⟩⟩
    · rw [hcache file hfile] at hdata
      obtain ⟨hcontent, htype, hrest⟩ := hs.cached file data hdata
      refine ⟨hcontent, htype, ?_⟩
      rcases hrest with hrest | ⟨j, h', hj, hfile'⟩
      · exact .inl ((hheld file hfile).mpr hrest)
      · refine .inr ⟨j, h', ?_, hfile'⟩
        rw [hother j, hj]
        rintro rfl
        rw [hcall] at hj
        cases hj
        exact hfile hfile'.symm
  · intro file hfileRemoved
    by_cases hfile : file = h.file
    · subst hfile
      exact hremoved hfileRemoved
    · rw [hgone file hfile] at hfileRemoved
      obtain ⟨hnot, hnone⟩ := hs.removed file hfileRemoved
      exact ⟨fun ht => hnot ((hheld file hfile).mp ht), (hcache file hfile).trans hnone⟩
  · intro j
    by_cases hj : j = i
    · subst hj
      rw [hself]
      rcases hnext with rfl | ⟨rfl, hfalse⟩
      · trivial
      · exact hfalse
    · rw [hother j hj]
      have hne : ∀ file, (s.calls j).uses file → file ≠ h.file := by
        rintro _ huse rfl
        rw [hfree j (Ne.symm hj)] at huse
        cases huse
      refine (hs.calls j).mono ?_ ?_ ?_
      · intro file huse
        exact (hheld file (hne file huse)).mpr
      · intro file huse hfalse
        rw [hgone file (hne file huse), hfalse]
      · intro file hremove hfalse
        rw [hbackend file (hne file (uses_of_removes hremove)), hfalse]
  · intro j k file hne hj
    by_cases hji : j = i
    · subst hji
      rw [hself] at hj
      rw [hother k hne.symm, hremoves file hj]
      exact hfree k hne
    · rw [hother j hji] at hj
      by_cases hki : k = i
      · subst hki
        rw [hself]
        by_contra huse
        rw [huses file (Bool.eq_true_of_not_eq_false huse)] at hj
        have hunused := hs.exclusive j k h.file hne hj
        simp [hcall, Phase.uses] at hunused
      · rw [hother k hki]
        exact hs.exclusive j k file hne hj
  · rw [houtcomes]
    exact hs.outcomes

theorem cacheRemove_cases (s : State) (h : Handle) (answer : Answer) :
    ∃ cache, (s.cacheRemove h answer).1 = { s with cache := cache } ∧
      (∀ file, file ≠ h.file → cache file = s.cache file) ∧
      (cache h.file = s.cache h.file ∨ cache h.file = none) ∧
      ((s.cacheRemove h answer).2 = false → canBeCached h.type → cache h.file = none) ∧
      ((s.cacheRemove h answer).2 → s.cache h.file ≠ none) := by
  by_cases hhas : s.has h
  · have hsome : s.cache h.file ≠ none := by
      simp only [State.has, Bool.and_eq_true] at hhas
      exact Option.isSome_iff_ne_none.mp hhas.2
    have hothers : ∀ file, file ≠ h.file → update s.cache h.file none file = s.cache file :=
      fun file hfile => update_of_ne hfile _ _
    have hself : update s.cache h.file none h.file = none := update_self ..
    simp only [State.cacheRemove, hhas, if_true]
    cases answer with
    | ok => exact ⟨_, rfl, hothers, .inr hself, fun _ _ => hself, nofun⟩
    | fail =>
      refine ⟨s.cache, rfl, fun _ _ => rfl, .inl rfl, ?_, fun _ => hsome⟩
      intro hfalse
      cases hfalse
    | failAfter =>
      refine ⟨_, rfl, hothers, .inr hself, ?_, fun _ => hsome⟩
      intro hfalse
      cases hfalse
  · simp only [State.cacheRemove, hhas]
    refine ⟨s.cache, rfl, fun _ _ => rfl, .inl rfl, fun _ htype => ?_, nofun⟩
    simpa [State.has, htype] using hhas

theorem Sound.removeStep {phase : RemovePhase} (hs : Sound content s)
    (hcall : s.calls i = .remove h phase) : Sound content (removeStep s i h answer phase) := by
  have hok := hs.calls i
  rw [hcall] at hok
  cases phase with
  | backend =>
    cases answer with
    | ok =>
      refine hs.ofRemove hcall rfl (.inr ⟨rfl, ?_⟩) ?_ (fun _ _ => rfl)
        (fun _ _ => rfl) (fun _ _ => rfl) rfl ?_ ?_
      · exact update_self ..
      · exact fun file hfile => update_of_ne hfile _ _
      · exact fun data hdata => ⟨hdata, .inr rfl⟩
      · intro hgone
        obtain ⟨hnot, hcache⟩ := hs.removed _ hgone
        refine ⟨?_, hcache⟩
        simp only [State.Held, not_or] at hnot
        simpa [Cache.removeStep, State.Held, State.setCall] using hnot.2
    | fail => exact hs.setReturned (by simp [hcall])
    | failAfter =>
      refine hs.ofRemove hcall rfl (.inl rfl) ?_ ?_ (fun _ _ => rfl) (fun _ _ => rfl) rfl ?_ ?_
      · exact fun file hfile => update_of_ne hfile _ _
      · exact fun file hfile => update_of_ne hfile _ _
      · intro data hdata
        refine ⟨hdata, .inl (.inr ?_)⟩
        have hheld : s.Held h.file :=
          (hs.held_of_cached i (by simp [hcall, Phase.uses]) (by simp [hcall]) hdata).2
        simp only [Cache.removeStep, update_self]
        simpa [State.Held, or_comm] using hheld
      · intro hgone
        obtain ⟨hnot, hcache⟩ := hs.removed _ hgone
        refine ⟨?_, hcache⟩
        simpa [Cache.removeStep, State.Held, or_comm] using hnot
  | cache =>
    obtain ⟨cache, hresult, hothers, hfile, hnone, hsome⟩ := cacheRemove_cases s h answer
    simp only [Cache.removeStep]
    generalize s.cacheRemove h answer = result at *
    obtain ⟨t, failed⟩ := result
    simp only at hresult
    subst hresult
    cases failed with
    | false =>
      have hempty : cache h.file = none := by
        by_cases htype : canBeCached h.type
        · exact hnone rfl htype
        · refine hfile.elim (fun hsame => ?_) id
          cases hcache : s.cache h.file with
          | none => exact hsame.trans hcache
          | some data => exact absurd (hs.cached _ _ hcache).2.1 htype
      refine hs.ofRemove hcall rfl (.inl rfl) (fun _ _ => rfl) ?_ ?_ hothers rfl ?_ ?_
      · exact fun file hne => update_of_ne hne _ _
      · exact fun file hne => update_of_ne hne _ _
      · intro data hdata
        exact absurd (hempty.symm.trans hdata) nofun
      · refine fun _ => ⟨?_, hempty⟩
        have hbackend : s.backend h.file = false := hok
        simp [State.Held, State.setCall, hbackend]
    | true =>
      refine hs.ofRemove hcall rfl (.inl rfl) (fun _ _ => rfl) ?_ (fun _ _ => rfl) hothers rfl ?_ ?_
      · exact fun file hne => update_of_ne hne _ _
      · intro data hdata
        refine ⟨?_, .inl (.inr (by simp))⟩
        rcases hfile with hsame | hgone
        · exact hsame.symm.trans hdata
        · exact absurd (hgone.symm.trans hdata) nofun
      · intro hgone
        exact absurd (hs.removed _ hgone).2 (hsome rfl)

theorem Sound.startCall {call : Call} (hs : Sound content s) (hidle : s.calls i = .idle)
    (hallowed : Exclusive s (.start i call)) : Sound content (startCall s i call) := by
  have hnot : ∀ h, s.calls i ≠ .remove h .cache := by simp [hidle]
  -- whoever removes a file removes it when the call asks for it
  have huses : ∀ {h : Handle}, (∀ j, (s.calls j).removes h.file = false) →
      ∀ j file, j ≠ i → (s.calls j).removes file → decide (h.file = file) = false := by
    intro h hfree j file _ hj
    refine decide_eq_false ?_
    rintro rfl
    rw [hfree j] at hj
    cases hj
  cases call with
  | load h length offset => exact hs.setCall trivial nofun (huses hallowed) hnot
  | save h =>
    have hforgot : Sound content { s with removed := update s.removed h.file false } := by
      constructor
      · exact hs.cached
      · intro file hremoved
        by_cases hfile : file = h.file
        · subst hfile
          simp at hremoved
        · simp only [update_of_ne hfile] at hremoved
          exact hs.removed file hremoved
      · intro j
        refine (hs.calls j).mono (fun _ _ => id) ?_ (fun _ _ => id)
        intro file _ hfalse
        by_cases hfile : file = h.file
        · subst hfile
          simp
        · simpa [hfile] using hfalse
      · exact hs.exclusive
      · exact hs.outcomes
    refine hforgot.setCall ?_ nofun (huses hallowed) hnot
    simp [Call.start, PhaseOk]
  | stat h => exact hs.setCall trivial nofun (fun _ _ _ _ => rfl) hnot
  | remove h =>
    refine hs.setCall trivial ?_ ?_ hnot
    · intro j file _ hfile
      cases of_decide_eq_true hfile
      exact hallowed j
    · refine huses fun j => ?_
      by_contra hremoves
      have huse := uses_of_removes (Bool.eq_true_of_not_eq_false hremoves)
      rw [hallowed j] at huse
      cases huse

theorem Sound.step {e : Event} (hs : Sound content s) (hallowed : Exclusive s e)
    (hstep : step content s e = some t) : Sound content t := by
  cases e with
  | start i call =>
    simp only [Cache.step] at hstep
    split at hstep <;> cases hstep
    rename_i hidle
    exact hs.startCall hidle hallowed
  | move i answer =>
    simp only [Cache.step] at hstep
    split at hstep
    · cases hstep
    · rename_i hcall
      exact hs.loadStep hcall hstep
    · rename_i hcall
      cases hstep
      exact hs.saveStep hcall
    · rename_i hcall
      cases hstep
      exact hs.statStep hcall
    · rename_i hcall
      cases hstep
      exact hs.removeStep hcall
    · cases hstep
  | lose file =>
    cases hstep
    exact hs.setCache_none file

end Rapi.Cache
