import Rapi.Locking.Safety

/-!
# Refreshing a lock while others try to acquire one

A holder should keep later clients out for as long as it does not call
`Unlock`.  `Refresh` can break this: a client that has listed the old lock file
and loads it only after `Refresh` has removed it ignores the file, and it has
not listed the new one.  When this happens in both of its checks, the client
acquires a conflicting lock.  It cannot happen when `Refresh` never removes a
file that such a client still has to load in its second check.
-/

namespace Rapi.Locking

open Foundation Restic Function

section Refresh

variable {Client : Type} [DecidableEq Client]

/-- No lock acquired after that of `h`, while `h` holds it, conflicts with it. -/
def Effective (s : State Client) : Prop :=
  ∀ h c excl excl', h ≠ c → s.Holds h excl → s.Holds c excl' →
    s.acquiredAt h < s.startedAt c → (excl || excl') = false

/--
The removal in `Refresh` happens only when no conflicting later client is left
with the removed file to load, unless it also listed another file of the holder.
-/
def Unraced (s : State Client) : Event Client → Prop
  | .remove h => ∀ c excl excl' id old own pending, s.phase h = .refreshed excl id old →
      s.phase c = .secondLoad excl' own pending → (excl || excl') → s.acquiredAt h < s.startedAt c →
      old ∈ pending → ∃ other ∈ pending, other ≠ old ∧ s.Has h other excl
  | _ => True

structure Guarded (s : State Client) : Prop where
  stored : Stored s
  time : ∀ c, s.startedAt c ≤ s.clock
  watched : ∀ h c excl excl' own pending, s.Holds h excl →
    s.phase c = .secondLoad excl' own pending → (excl || excl') →
    s.acquiredAt h < s.startedAt c → ∃ id ∈ pending, s.Has h id excl
  effective : Effective s

variable {s t : State Client} {c a : Client} {excl : Bool} {e : Event Client}

omit [DecidableEq Client] in
theorem State.Holds.claims (h : s.Holds c excl) : (s.phase c).claims = some excl := by
  obtain ⟨id, h | ⟨old, h⟩⟩ := h
  · simp [h, Phase.claims]
  · simp [h, Phase.claims]

omit [DecidableEq Client] in
theorem State.Holds.exists_has (h : s.Holds c excl) (hs : Stored s) :
    ∃ id ∈ (s.phase c).owned, s.Has c id excl := by
  obtain ⟨id, hid⟩ := Phase.exists_owned_of_claims h.claims
  obtain ⟨stored, hhas, hclaim⟩ := hs.has c id hid
  rw [hclaim excl h.claims] at hhas
  exact ⟨id, hid, hhas⟩

/--
A client that holds a lock after a step has held it before with the same files,
or it has acquired it just now.
-/
theorem Effect.holds_mover (heffect : Effect s a e t) (h : t.Holds a excl) :
    (s.Holds a excl ∧ t.acquiredAt = s.acquiredAt ∧
        t.startedAt = s.startedAt ∧
        ∀ id, s.Has a id excl →
          t.Has a id excl ∨ e = .remove a ∧ ∃ new, s.phase a = .refreshed excl new id) ∨
      (t.acquiredAt a = s.clock ∧
        t.startedAt = s.startedAt ∧ ∃ own, s.phase a = .secondLoad excl own []) := by
  have hclaims := h.claims
  cases heffect with
  | quiet howned hnone hother htime => simp [State.goto, hnone] at hclaims
  | save hphase hfresh | list hphase | load hphase hclear | remove hphase =>
    simp [State.Holds, State.goto] at h
  | @acquire excl₁ id hphase =>
    simp only [State.goto, update_self, Phase.claims, Option.some.injEq] at hclaims
    subst hclaims
    exact Or.inr ⟨update_self _ _ _, rfl, id, hphase⟩
  | @refresh excl₁ id old hevent hphase hfresh =>
    simp only [State.goto, update_self, Phase.claims, Option.some.injEq] at hclaims
    subst hclaims
    refine Or.inl ⟨⟨old, Or.inl hphase⟩, rfl, rfl, ?_⟩
    intro other hhas
    exact Or.inl (Store.load_save_of_load hfresh hhas)
  | @replace excl₁ id old hevent hphase =>
    simp only [State.goto, update_self, Phase.claims, Option.some.injEq] at hclaims
    subst hclaims
    refine Or.inl ⟨⟨id, Or.inr ⟨old, hphase⟩⟩, rfl, rfl, ?_⟩
    intro other hhas
    by_cases hother : other = old
    · exact Or.inr ⟨hevent, id, by rw [hphase, hother]⟩
    · exact Or.inl ((Store.load_remove_of_ne s.files hother).trans hhas)
  | @keep excl₁ id old hphase =>
    simp only [State.goto, update_self, Phase.claims, Option.some.injEq] at hclaims
    subst hclaims
    exact Or.inl ⟨⟨id, Or.inr ⟨old, hphase⟩⟩, rfl, rfl, fun other hhas => Or.inl hhas⟩

theorem Effect.times_other (heffect : Effect s a e t) (hca : c ≠ a) :
    t.acquiredAt c = s.acquiredAt c ∧ t.startedAt c = s.startedAt c := by
  cases heffect with
  | quiet howned hnone hother htime => exact ⟨rfl, hother c hca⟩
  | acquire => exact ⟨update_of_ne hca _ _, rfl⟩
  | save | list | load | refresh | replace | keep | remove => exact ⟨rfl, rfl⟩

theorem Effect.holds_other (heffect : Effect s a e t) (hca : c ≠ a)
    (h : t.Holds c excl) : s.Holds c excl := by
  unfold State.Holds at h ⊢
  rwa [heffect.phase_other hca] at h

theorem Effect.time (heffect : Effect s a e t) (htime : ∀ c, s.startedAt c ≤ s.clock) (c : Client) :
    t.startedAt c ≤ t.clock := by
  have hc := htime c
  cases heffect with
  | @quiet next startedAt howned hnone hother hnow =>
    change startedAt c ≤ s.clock + 1
    by_cases hca : c = a
    · subst hca
      omega
    · rw [hother c hca]
      omega
  | _ => exact Nat.le_succ_of_le hc

/-- A client in its second check still has a file of every such holder to load. -/
private theorem watched_effect (heffect : Effect s a e t) (hs : Guarded s) (hunraced : Unraced s e)
    {h : Client} {excl' : Bool} {own : ID} {pending : List ID} (hholds : t.Holds h excl)
    (hphase : t.phase c = .secondLoad excl' own pending) (hconflict : (excl || excl'))
    (hlate : t.acquiredAt h < t.startedAt c) : ∃ id ∈ pending, t.Has h id excl := by
  by_cases hca : c = a
  · -- the checker moved: it has just listed, or it has loaded another file
    subst hca
    have hhc : h ≠ c := by
      rintro rfl
      have := hholds.claims
      simp [State.Holds, hphase] at hholds
    have hholds' := heffect.holds_other hhc hholds
    cases heffect with
    | quiet howned hnone hother htime =>
      simp only [State.goto, update_self] at hphase
      simp [hphase, Phase.claims] at hnone
    | @list excl₁ id hsecond =>
      simp only [State.goto, update_self, Phase.secondLoad.injEq] at hphase
      obtain ⟨rfl, rfl, rfl⟩ := hphase
      obtain ⟨id', howned, hhas⟩ := hholds'.exists_has hs.stored
      have hne : id' ≠ id := hs.stored.ne hhc howned (by simp [hsecond, Phase.owned])
      exact ⟨id', by simp [hs.stored.mem_names howned, hne], hhas⟩
    | @load excl₁ id other before hsecond hclear =>
      simp only [State.goto, update_self, Phase.secondLoad.injEq] at hphase
      obtain ⟨rfl, rfl, rfl⟩ := hphase
      obtain ⟨id', hmem, hhas⟩ := hs.watched h c excl excl₁ id before
        hholds' hsecond hconflict hlate
      have hne : id' ≠ other := by
        rintro rfl
        have := conflicts_of_has hhas (by rwa [Bool.or_comm] at hconflict)
        simp [hclear] at this
      exact ⟨id', (List.mem_erase_of_ne hne).mpr hmem, hhas⟩
    | save | acquire | refresh | replace | keep | remove => simp [State.goto] at hphase
  · have hphase' : s.phase c = .secondLoad excl' own pending := by
      rw [← heffect.phase_other hca, hphase]
    by_cases hha : h = a
    · -- the holder moved: only the removal in `Refresh` can take a file away
      subst hha
      rcases heffect.holds_mover hholds with
        ⟨hbefore, hacq, hstart, hfiles⟩ | ⟨hacq, hstart, -⟩
      · rw [hacq, hstart] at hlate
        obtain ⟨id, hmem, hhas⟩ := hs.watched h c excl excl' own pending
          hbefore hphase' hconflict hlate
        rcases hfiles id hhas with hkept | ⟨rfl, new, hrefreshed⟩
        · exact ⟨id, hmem, hkept⟩
        · obtain ⟨other, hother, hne, hhas'⟩ := hunraced c excl excl' new id
            own pending hrefreshed hphase' hconflict hlate hmem
          rcases hfiles other hhas' with hkept | ⟨-, new', hrefreshed'⟩
          · exact ⟨other, hother, hkept⟩
          · rw [hrefreshed] at hrefreshed'
            cases hrefreshed'
            exact absurd rfl hne
      · have := hs.time c
        rw [hacq, hstart] at hlate
        omega
    · have hholds' := heffect.holds_other hha hholds
      rw [(heffect.times_other hha).1, (heffect.times_other hca).2] at hlate
      obtain ⟨id, hmem, hhas⟩ := hs.watched h c excl excl' own pending
        hholds' hphase' hconflict hlate
      exact ⟨id, hmem, heffect.has_other hs.stored hha hhas⟩

private theorem effective_effect (heffect : Effect s a e t) (hs : Guarded s) : Effective t := by
  intro h c excl excl' hhc hh hc hlate
  by_cases hca : c = a
  · subst hca
    have hh' := heffect.holds_other hhc hh
    rw [(heffect.times_other hhc).1] at hlate
    rcases heffect.holds_mover hc with
      ⟨hbefore, -, hstart, -⟩ | ⟨-, hstart, own, hphase⟩
    · rw [hstart] at hlate
      exact hs.effective h c excl excl' hhc hh' hbefore hlate
    · -- nothing was left to load, so there was no file of `h` to conflict with
      rw [hstart] at hlate
      by_contra hconflict
      obtain ⟨id, hmem, -⟩ := hs.watched h c excl excl' own [] hh' hphase
        (by simpa only [Bool.not_eq_false] using hconflict) hlate
      simp at hmem
  · have hc' := heffect.holds_other hca hc
    rw [(heffect.times_other hca).2] at hlate
    by_cases hha : h = a
    · subst hha
      rcases heffect.holds_mover hh with ⟨hbefore, hacq, -⟩ | ⟨hacq, -⟩
      · rw [hacq] at hlate
        exact hs.effective h c excl excl' hhc hbefore hc' hlate
      · have := hs.time c
        omega
    · rw [(heffect.times_other hha).1] at hlate
      exact hs.effective h c excl excl' hhc (heffect.holds_other hha hh) hc' hlate

theorem refresh_effective_of_unraced {files : Store ID (Lock Client)}
    {s : State Client} (hreach : Reaches step Unraced (initial files) s) :
    Effective s := by
  have hs : Guarded s := by
    apply hreach.invariant step
    · exact
        { stored := stored_initial files
          time := by simp [initial]
          watched := by simp [initial, State.Holds]
          effective := by simp [Effective, initial, State.Holds] }
    · intro s e t hs hallowed hstep
      have heffect := effect_of_step hstep
      exact
        { stored := hs.stored.effect heffect
          time := heffect.time hs.time
          watched := fun _ _ _ _ _ _ hholds hphase hconflict hlate =>
            watched_effect heffect hs hallowed hholds hphase hconflict hlate
          effective := effective_effect heffect hs }
  exact hs.effective

end Refresh

/-- The holder `true` refreshes its lock during the first check of the client `false`,
which misses it.  In the second check that client has two files of the holder to load
when the older one is removed. -/
theorem refresh_effective_of_unraced_twoFiles :
    ∃ s : State Bool, Reaches step Unraced (initial []) s ∧
      s.phase true = .held true (.ofNat 4) ∧
      s.phase false = .unlocking (.ofNat 3) ∧ Effective s := by
  let first := acquisition true true (.ofNat 1) ++
    [.newLock false true, .list false, .refresh true (.ofNat 2)]
  have hfirst : Reaches step Unraced (initial []) ((run step (initial []) first).get rfl) :=
    reaches_of_run step .refl (by simp [first, acquisition, Unraced]) (Option.some_get _).symm
  have hmissed : Unraced ((run step (initial []) first).get rfl) (.remove true) := by
    intro c excl excl' id old own pending _ hphase
    cases c <;> cases hphase
  let second : List (Event Bool) :=
    [.load false (.ofNat 1), .checked false, .save false (.ofNat 3),
      .refresh true (.ofNat 4), .list false]
  have hallowed : ∀ s, ∀ e ∈ second, Unraced s e := by simp [second, Unraced]
  have hsecond : Reaches step Unraced (initial [])
      ((run step (initial []) (first ++ .remove true :: second)).get rfl) :=
    reaches_of_run step (hfirst.next hmissed rfl) hallowed rfl
  have hseen : Unraced ((run step (initial [])
      (first ++ .remove true :: second)).get rfl) (.remove true) := by
    intro c excl excl' id old own pending hheld hphase _ _ _
    cases c with
    | true => cases hphase
    | false =>
      cases hphase
      cases hheld
      exact ⟨.ofNat 4, by decide, by decide, rfl⟩
  -- the other client finds the newer file
  have hload : ∀ s, Unraced s (.load false (.ofNat 4) : Event Bool) := fun _ => trivial
  have hlast := (hsecond.next hseen rfl).next (hload _) rfl
  exact ⟨_, hlast, rfl, rfl, refresh_effective_of_unraced hlast⟩

/-! ## A race that is lost twice -/

/--
The holder `true` refreshes its exclusive lock once during each of the two
checks of the client `false`, which then acquires an exclusive lock as well.
-/
def lostRace : List (Event Bool) :=
  acquisition true true (.ofNat 1) ++ [.newLock false true, .list false,
      .refresh true (.ofNat 2), .remove true,
      .load false (.ofNat 1), .checked false, .save false (.ofNat 3),
      .list false, .refresh true (.ofNat 4), .remove true, .load false (.ofNat 2), .checked false]

theorem refresh_not_effective :
    ¬ ∀ s : State Bool, Reaches step Anything (initial []) s → Effective s := by
  intro heffective
  have hreach : Reaches step Anything (initial []) ((run step (initial []) lostRace).get rfl) :=
    reaches_of_run step .refl (fun _ _ _ => trivial) (Option.some_get _).symm
  have hholder := (⟨.ofNat 4, Or.inl rfl⟩ :
    ((run step (initial []) lostRace).get rfl).Holds true true)
  have hother := (⟨.ofNat 3, Or.inl rfl⟩ :
    ((run step (initial []) lostRace).get rfl).Holds false true)
  have := heffective _ hreach true false true true (by decide) hholder hother (by decide)
  simp at this

end Rapi.Locking
