import Rapi.Locking.Protocol

/-!
# Mutual exclusion of lock holders

The argument is the one of check, create, check again.  Of two clients with
saved lock files, the one that saved last lists the files afterwards and so
finds the file of the other.  `Ordered` is the invariant that makes this
precise: two clients with conflicting locks have never both cleared each other.
-/

namespace Rapi.Locking

open Foundation Restic Function Store State Phase

namespace Phase

/-- The lock files that the client has saved and not yet removed. -/
def owned : Phase → List ID
  | .secondList _ id => [id]
  | .secondLoad _ id _ => [id]
  | .held _ id => [id]
  | .refreshed _ id old => [id, old]
  | .unlocking id => [id]
  | _ => []

/-- The kind of the lock that the client has saved and may still acquire. -/
def claims : Phase → Option Bool
  | .secondList excl _ => some excl
  | .secondLoad excl _ _ => some excl
  | .held excl _ => some excl
  | .refreshed excl _ _ => some excl
  | _ => none

end Phase

/-! ## Saved files belong to the client that saved them -/

section Ownership

variable {Client : Type}

/-- The lock file `id` is in the backend, and `c` has put it there. -/
def State.Has (s : State Client) (c : Client) (id : ID) (excl : Bool) : Prop :=
  s.files.load id = some ⟨c, excl⟩

structure Stored (s : State Client) : Prop where
  has : ∀ c, ∀ id ∈ (s.phase c).owned, ∃ excl, s.Has c id excl ∧
    ∀ claimed, (s.phase c).claims = some claimed → excl = claimed
  distinct : ∀ c excl id old, s.phase c = .refreshed excl id old → id ≠ old

variable {s : State Client} {c : Client} {id : ID}

theorem Stored.ne (h : Stored s) {d : Client} (hcd : c ≠ d) {other : ID}
    (hid : id ∈ (s.phase c).owned) (hother : other ∈ (s.phase d).owned) : id ≠ other := by
  rintro rfl
  obtain ⟨excl, hc, -⟩ := h.has c id hid
  obtain ⟨excl', hd, -⟩ := h.has d id hother
  unfold State.Has at hc hd
  rw [hc] at hd
  cases hd
  exact hcd rfl

theorem Stored.mem_names (h : Stored s) (hid : id ∈ (s.phase c).owned) : id ∈ s.files.names := by
  obtain ⟨excl, hc, -⟩ := h.has c id hid
  exact mem_names_of_load hc

theorem stored_initial (files : Store ID (Lock Client)) : Stored (initial files) where
  has c id hid := by simp [initial, owned] at hid
  distinct c excl id old hphase := by simp [initial] at hphase

theorem Phase.exists_owned_of_claims {p : Phase} {excl : Bool}
    (h : p.claims = some excl) : ∃ id, id ∈ p.owned := by
  cases p <;> simp_all [claims, owned]

theorem conflicts_of_has {excl excl' : Bool} (hhas : s.Has c id excl')
    (hconflict : (excl || excl')) : s.conflicts excl id := by
  unfold State.Has at hhas
  simpa [State.conflicts, hhas] using hconflict

end Ownership

section Effects

variable {Client : Type} [DecidableEq Client] {e : Event Client}

/-! ## What one step can do -/

def Event.client : Event Client → Client
  | .newLock c _ => c
  | .list c => c
  | .load c _ => c
  | .checked c => c
  | .save c _ => c
  | .refresh c _ => c
  | .remove c => c
  | .unlock c => c
  | .fail c => c

def Event.IsRefresh : Event Client → Prop
  | .refresh _ _ => True
  | _ => False

inductive Effect (s : State Client) (a : Client) (e : Event Client) : State Client → Prop
  | quiet {next : Phase} {startedAt : Client → Nat} (howned : next.owned ⊆ (s.phase a).owned)
      (hclaims : next.claims = none) (hother : ∀ c, c ≠ a → startedAt c = s.startedAt c)
      (htime : startedAt a ≤ s.clock ∨ startedAt a = s.startedAt a) :
      Effect s a e { s.goto a next with startedAt := startedAt }
  | save {excl : Bool} {id : ID} (hphase : s.phase a = .create excl) (hfresh : id ∉ s.files.names) :
      Effect s a e ((s.saveFile id ⟨a, excl⟩).goto a (.secondList excl id))
  | list {excl : Bool} {id : ID} (hphase : s.phase a = .secondList excl id) :
      Effect s a e (s.goto a (.secondLoad excl id (s.files.names.filter (· ≠ id))))
  | load {excl : Bool} {id other : ID} {pending : List ID}
      (hphase : s.phase a = .secondLoad excl id pending) (hclear : s.conflicts excl other = false) :
      Effect s a e (s.goto a (.secondLoad excl id (pending.erase other)))
  | acquire {excl : Bool} {id : ID} (hphase : s.phase a = .secondLoad excl id []) : Effect s a e
        { s.goto a (.held excl id) with
          acquiredAt := Function.update s.acquiredAt a s.clock }
  | refresh {excl : Bool} {id old : ID} (hevent : e = .refresh a id)
      (hphase : s.phase a = .held excl old) (hfresh : id ∉ s.files.names) :
      Effect s a e ((s.saveFile id ⟨a, excl⟩).goto a (.refreshed excl id old))
  | replace {excl : Bool} {id old : ID} (hevent : e = .remove a)
      (hphase : s.phase a = .refreshed excl id old) :
      Effect s a e ((s.removeFile old).goto a (.held excl id))
  | keep {excl : Bool} {id old : ID} (hphase : s.phase a = .refreshed excl id old) :
      Effect s a e (s.goto a (.held excl id))
  | remove {id : ID} (hphase : s.phase a = .unlocking id) :
      Effect s a e ((s.removeFile id).goto a .idle)

variable {s t : State Client} {a c : Client} {id : ID} {excl : Bool}

theorem Effect.quiet_goto {next : Phase} (howned : next.owned ⊆ (s.phase a).owned)
    (hclaims : next.claims = none) : Effect s a e (s.goto a next) :=
  @Effect.quiet _ _ s a e next s.startedAt howned hclaims (fun _ _ => rfl) (Or.inr rfl)

theorem effect_of_step {e : Event Client} (h : step s e = some t) : Effect s e.client e t := by
  cases e with
  | newLock c excl =>
    simp only [step] at h
    split at h
    · cases h
      exact .quiet (by simp [owned]) rfl
        (fun d hd => update_of_ne hd _ _) (Or.inl (by simp [Event.client]))
    · cases h
  | list c =>
    simp only [step] at h
    split at h
    · cases h
      exact .quiet_goto (by simp [owned]) rfl
    · cases h
      exact .list ‹_›
    · cases h
  | load c id =>
    simp only [step] at h
    split at h
    · split_ifs at h with hmem hconflict
      · cases h
        exact .quiet_goto (by simp [owned]) rfl
      · cases h
        exact .quiet_goto (by simp [owned]) rfl
    · rename_i excl own pending hphase
      split_ifs at h with hmem hconflict
      · cases h
        exact .quiet_goto (by simp [owned, Event.client, hphase]) rfl
      · cases h
        exact .load hphase (by simpa using hconflict)
    · cases h
  | checked c =>
    simp only [step] at h
    split at h
    · cases h
      exact .quiet_goto (by simp [owned]) rfl
    · cases h
      exact .acquire ‹_›
    · cases h
  | save c id =>
    simp only [step] at h
    split at h
    · split_ifs at h with hmem
      cases h
      exact .save ‹_› hmem
    · cases h
  | refresh c id =>
    simp only [step] at h
    split at h
    · split_ifs at h with hmem
      cases h
      exact .refresh rfl ‹_› hmem
    · cases h
  | remove c =>
    simp only [step] at h
    split at h
    · cases h
      exact .replace rfl ‹_›
    · cases h
      exact .remove ‹_›
    · cases h
  | unlock c =>
    simp only [step] at h
    split at h
    · rename_i excl id hphase
      cases h
      exact .quiet_goto (by simp [owned, Event.client, hphase]) rfl
    · cases h
  | fail c =>
    simp only [step] at h
    split at h
    all_goals first
      | (cases h; exact .keep ‹_›)
      | (cases h; exact .quiet_goto (by simp_all [owned, Event.client]) rfl)
      | cases h

/-- The files of a client that does not move are not touched by others. -/
theorem Effect.has_other (heffect : Effect s a e t) (hs : Stored s) (hca : c ≠ a)
    (h : s.Has c id excl) : t.Has c id excl := by
  have hforeign : ∀ other ∈ (s.phase a).owned, id ≠ other := by
    rintro other hmem rfl
    obtain ⟨excl', ha, -⟩ := hs.has a id hmem
    unfold State.Has at h ha
    rw [h] at ha
    cases ha
    exact hca rfl
  cases heffect with
  | quiet | list | load | acquire | keep => exact h
  | save hphase hid | refresh hevent hphase hid => exact load_save_of_load hid h
  | replace hevent hphase | remove hphase =>
    exact (load_remove_of_ne s.files (hforeign _ (by simp [hphase, owned]))).trans h

theorem Effect.phase_other (heffect : Effect s a e t) (hca : c ≠ a) : t.phase c = s.phase c := by
  cases heffect <;> simp [goto, State.saveFile, State.removeFile, update_of_ne hca]

private theorem has_effect (hs : Stored s) (heffect : Effect s a e t)
    (hid : id ∈ (t.phase c).owned) : ∃ excl, t.Has c id excl ∧
      ∀ claimed, (t.phase c).claims = some claimed → excl = claimed := by
  by_cases hca : c = a
  · subst hca
    cases heffect with
    | quiet howned hclaims hother htime =>
      simp only [goto, update_self] at hid ⊢
      obtain ⟨excl, hhas, -⟩ := hs.has c id (howned hid)
      exact ⟨excl, hhas, by simp [hclaims]⟩
    | save hphase hfresh =>
      simp only [goto, update_self, owned, List.mem_singleton] at hid
      subst hid
      exact ⟨_, load_save_self _ _ _, by simp [goto, claims]⟩
    | list hphase | load hphase hclear | acquire hphase =>
      obtain ⟨excl, hhas, hclaim⟩ := hs.has c id (by
        simpa [goto, hphase, owned] using hid)
      exact ⟨excl, hhas, by simpa [goto, hphase, claims] using hclaim⟩
    | @refresh excl new old hevent hphase hfresh =>
      simp only [goto, update_self, owned,
        List.mem_cons, List.not_mem_nil, or_false] at hid
      rcases hid with rfl | rfl
      · exact ⟨_, load_save_self _ _ _, by simp [goto, claims]⟩
      · obtain ⟨excl', hhas, hclaim⟩ := hs.has c id (by
          simp [hphase, owned])
        exact ⟨excl', load_save_of_load hfresh hhas, by
          simpa [goto, hphase, claims] using hclaim⟩
    | @replace excl new old hevent hphase =>
      simp only [goto, update_self, owned, List.mem_singleton] at hid
      subst hid
      obtain ⟨excl', hhas, hclaim⟩ := hs.has c id (by simp [hphase, owned])
      have hne := hs.distinct c excl id old hphase
      exact ⟨excl', (load_remove_of_ne s.files hne).trans hhas, by
        simpa [goto, hphase, claims] using hclaim⟩
    | @keep excl new old hphase =>
      obtain ⟨excl, hhas, hclaim⟩ := hs.has c id (by
        simp only [goto, update_self, owned, List.mem_singleton] at hid
        simp [hphase, owned, hid])
      exact ⟨excl, hhas, by simpa [goto, hphase, claims] using hclaim⟩
    | remove hphase => simp [goto, owned] at hid
  · rw [heffect.phase_other hca] at hid ⊢
    obtain ⟨excl, hhas, hclaim⟩ := hs.has c id hid
    exact ⟨excl, heffect.has_other hs hca hhas, hclaim⟩

private theorem Effect.refreshed_inv {old : ID} (heffect : Effect s a e t)
    (hphase : t.phase c = .refreshed excl id old) : s.phase c = .refreshed excl id old ∨
      e.IsRefresh ∧ old ∈ (s.phase c).owned ∧ id ∉ s.files.names := by
  by_cases hca : c = a
  · subst hca
    cases heffect with
    | quiet howned hclaims hother htime =>
      simp only [goto, update_self] at hphase
      simp [hphase, claims] at hclaims
    | refresh hevent hheld hfresh =>
      simp only [goto, update_self, Phase.refreshed.injEq] at hphase
      obtain ⟨-, rfl, rfl⟩ := hphase
      exact .inr ⟨by simp [hevent, Event.IsRefresh], by simp [hheld, owned], hfresh⟩
    | save | list | load | acquire | replace | keep | remove => simp [goto] at hphase
  · rw [heffect.phase_other hca] at hphase
    exact .inl hphase

private theorem distinct_effect (hs : Stored s) (heffect : Effect s a e t)
    {old : ID} (hphase : t.phase c = .refreshed excl id old) : id ≠ old := by
  rcases heffect.refreshed_inv hphase with hbefore | ⟨-, hmem, hfresh⟩
  · exact hs.distinct c excl id old hbefore
  · rintro rfl
    exact hfresh (hs.mem_names hmem)

theorem Stored.effect (hs : Stored s) (heffect : Effect s a e t) : Stored t where
  has _ _ hid := has_effect hs heffect hid
  distinct _ _ _ _ hphase := distinct_effect hs heffect hphase

/-! ## Two conflicting clients never clear each other -/

/-- `c` has listed the files and found none of `d` among those it must load. -/
def Cleared (s : State Client) (c d : Client) : Prop :=
  match s.phase c with
  | .secondLoad _ _ pending => ∀ id ∈ (s.phase d).owned, id ∉ pending
  | .held _ _ => True
  | _ => False

def Ordered (s : State Client) : Prop :=
  ∀ c d excl excl', c ≠ d → (s.phase c).claims = some excl →
    (s.phase d).claims = some excl' → (excl || excl') → ¬ (Cleared s c d ∧ Cleared s d c)

/-- The mover cannot newly clear a client with a conflicting saved lock. -/
theorem Effect.cleared {d : Client} {excl' : Bool} (heffect : Effect s a e t)
    (hrefresh : ¬ e.IsRefresh) (hs : Stored s)
    (hnot : ∀ excl id old, s.phase a ≠ .refreshed excl id old) (had : a ≠ d)
    (ha : (t.phase a).claims = some excl) (hd : (s.phase d).claims = some excl')
    (hconflict : (excl || excl')) (hcleared : Cleared t a d) :
    Cleared s a d ∧ (s.phase a).claims = some excl ∧
      (t.phase a).owned = (s.phase a).owned := by
  obtain ⟨id', hid'⟩ := Phase.exists_owned_of_claims hd
  cases heffect with
  | quiet howned hclaims hother htime => simp [goto, hclaims] at ha
  | save => simp [Cleared, goto] at hcleared
  | @list excl₁ own hphase =>
    -- the file of `d` is present, so the listing contains it
    simp only [Cleared, goto, update_self] at hcleared
    have hne : id' ≠ own := hs.ne (Ne.symm had) hid' (by simp [hphase, owned])
    rw [update_of_ne (Ne.symm had)] at hcleared
    exact absurd (hcleared id' hid') (by simp [hs.mem_names hid', hne])
  | @load excl₁ own other pending hphase hclear =>
    simp only [goto, update_self, claims, Option.some.injEq] at ha
    subst ha
    simp only [Cleared, goto, update_self] at hcleared
    rw [update_of_ne (Ne.symm had)] at hcleared
    refine ⟨?_, by simp [hphase, claims], ?_⟩
    · simp only [Cleared, hphase]
      intro id hid hmem
      have hother : id ≠ other := by
        rintro rfl
        obtain ⟨stored, hhas, hclaim⟩ := hs.has d id hid
        have hsame := hclaim excl' hd
        subst hsame
        have := conflicts_of_has hhas hconflict
        simp [hclear] at this
      exact hcleared id hid ((List.mem_erase_of_ne hother).mpr hmem)
    · simp [goto, hphase, owned]
  | acquire hphase =>
    refine ⟨by simp [Cleared, hphase], ?_, ?_⟩
    · simpa [goto, hphase, claims] using ha
    · simp [goto, hphase, owned]
  | refresh hevent => exact absurd (by simp [hevent, Event.IsRefresh]) hrefresh
  | replace hevent hphase | keep hphase => exact absurd hphase (hnot _ _ _)
  | remove => simp [goto, claims] at ha

end Effects

/-! ## Runs without `Refresh` -/

section Runs

variable {Client : Type} [DecidableEq Client] {e : Event Client}

def NoRefresh (_ : State Client) (e : Event Client) : Prop := ¬ e.IsRefresh

structure Exclusion (s : State Client) : Prop where
  stored : Stored s
  single : ∀ c excl id old, s.phase c ≠ .refreshed excl id old
  ordered : Ordered s

private theorem single_effect {s t : State Client} {a : Client} (heffect : Effect s a e t)
    (hrefresh : ¬ e.IsRefresh) (hsingle : ∀ c excl id old, s.phase c ≠ .refreshed excl id old)
    (c : Client) (excl : Bool) (id old : ID) : t.phase c ≠ .refreshed excl id old := by
  intro hphase
  rcases heffect.refreshed_inv hphase with hbefore | ⟨hevent, -⟩
  · exact hsingle c excl id old hbefore
  · exact hrefresh hevent

private theorem ordered_effect {s t : State Client} {a : Client}
    (heffect : Effect s a e t) (hrefresh : ¬ e.IsRefresh) (hs : Exclusion s) : Ordered t := by
  -- by symmetry it is enough to look at the pairs whose first client moved
  have hmoved : ∀ d excl excl', a ≠ d → (t.phase a).claims = some excl →
      (s.phase d).claims = some excl' → (excl || excl') → Cleared t a d → ¬ Cleared t d a := by
    intro d excl excl' had ha hd hconflict hcleared hback
    obtain ⟨hbefore, hclaims, howned⟩ := heffect.cleared hrefresh hs.stored
      (hs.single a) had ha hd hconflict hcleared
    have hdt : t.phase d = s.phase d := heffect.phase_other (Ne.symm had)
    have hback' : Cleared s d a := by simpa [Cleared, hdt, howned] using hback
    exact hs.ordered a d excl excl' had hclaims hd hconflict ⟨hbefore, hback'⟩
  intro c d excl excl' hcd hc hd hconflict hboth
  by_cases hca : c = a
  · subst hca
    rw [heffect.phase_other (Ne.symm hcd)] at hd
    exact hmoved d excl excl' hcd hc hd hconflict hboth.1 hboth.2
  by_cases hda : d = a
  · subst hda
    rw [heffect.phase_other hcd] at hc
    exact hmoved c excl' excl (Ne.symm hcd) hd hc
      (by rw [Bool.or_comm]; exact hconflict) hboth.2 hboth.1
  · have hct := heffect.phase_other hca
    have hdt := heffect.phase_other hda
    rw [hct] at hc
    rw [hdt] at hd
    simp only [Cleared, hct, hdt] at hboth
    exact hs.ordered c d excl excl' hcd hc hd hconflict hboth

theorem exclusive_lock_excludes {files : Store ID (Lock Client)}
    {s : State Client} (hreach : Reaches step NoRefresh (initial files) s)
    {c d : Client} (hcd : c ≠ d) (hc : s.Holds c true) :
    ¬ ∃ excl, s.Holds d excl := by
  have hs : Exclusion s := by
    apply hreach.invariant step
    · exact
        { stored := stored_initial files
          single := by simp [initial]
          ordered := by
            intro c d excl excl' hcd hc
            simp [initial, claims] at hc }
    · intro s e t hs hallowed hstep
      have heffect := effect_of_step hstep
      exact
        { stored := hs.stored.effect heffect
          single := single_effect heffect hallowed hs.single
          ordered := ordered_effect heffect hallowed hs }
  rintro ⟨excl, id', hd⟩
  obtain ⟨id, hc⟩ := hc
  -- neither holder is in the middle of a refresh, so both have cleared the other
  replace hc : s.phase c = .held true id := by
    rcases hc with hc | ⟨old, hc⟩
    · exact hc
    · exact absurd hc (hs.single c true id old)
  replace hd : s.phase d = .held excl id' := by
    rcases hd with hd | ⟨old, hd⟩
    · exact hd
    · exact absurd hd (hs.single d excl id' old)
  exact hs.ordered c d true excl hcd (by simp [hc, claims]) (by simp [hd, claims]) rfl
    ⟨by simp [Cleared, hc], by simp [Cleared, hd]⟩

def acquisition (c : Client) (excl : Bool) (id : ID) : List (Event Client) :=
  [.newLock c excl, .list c, .checked c, .save c id, .list c, .checked c]

/-- Both clients find no lock at first.  One of them then finds the lock of the other
and gives up, and finds it again when it tries to get a shared lock. -/
def contention : List (Event Bool) :=
  [.newLock true true, .newLock false true, .list true, .list false, .checked true,
    .checked false, .save true (.ofNat 1), .save false (.ofNat 2), .list true,
    .list false, .load false (.ofNat 1), .remove false, .load true (.ofNat 2),
    .checked true, .newLock false false, .list false, .load false (.ofNat 1)]

theorem exclusive_lock_excludes_contention :
    ∃ s : State Bool, Reaches step NoRefresh (initial []) s ∧
      s.Holds true true ∧ ¬ ∃ excl, s.Holds false excl := by
  have hreach : Reaches step NoRefresh (initial []) ((run step (initial []) contention).get rfl) :=
    reaches_of_run step .refl (by simp [contention, NoRefresh, Event.IsRefresh])
      (Option.some_get _).symm
  have hholds := (⟨.ofNat 1, Or.inl rfl⟩ : ((run step (initial [])
    contention).get rfl).Holds true true)
  exact ⟨_, hreach, hholds, exclusive_lock_excludes hreach (by decide) hholds⟩

end Runs

end Rapi.Locking
