import Rapi.Repository.Session

/-!
# What a call without an error means

`SaveBlob` announces a blob before it is stored, and only `StorePack` takes the
announcement back.  As long as every call of `SaveBlob` gets as far as
`StorePack`, a call that reports no error has its blob in the index or in an
open packer.  A call that fails earlier leaves the announcement, and so the next
call for the same blob finds it known and does nothing.
-/

namespace Rapi.Repository

open Foundation Crypto Restic MasterIndex RepoState

/-! ## Calls one after the other -/

inductive Event
  | saveBlob (t : BlobType) (buf : Bytes) (id : ID) (storeDuplicate : Bool)
      (newID : ID) (known : Bool) (err : Option SaveError)
  | flushPacks (err : Option SaveError)

def Event.Happens (r : Repo) (s s' : RepoState) : Event → Prop
  | .saveBlob t buf id storeDuplicate newID known err =>
    Runs system (r.saveBlob t buf id storeDuplicate) s (newID, known, err) s'
  | .flushPacks err => Runs system r.flushPacks s err s'

inductive Calls (r : Repo) (start : RepoState) : List Event → RepoState → Prop
  | nil : Calls r start [] start
  | snoc {events : List Event} {event : Event} {s s' : RepoState}
      (hcalls : Calls r start events s) (hevent : event.Happens r s s') :
      Calls r start (events ++ [event]) s'

theorem Calls.snoc_inv {r : Repo} {start s' : RepoState} {events : List Event}
    {event : Event} (h : Calls r start (events ++ [event]) s') :
    ∃ s, Calls r start events s ∧ event.Happens r s s' := by
  generalize hall : events ++ [event] = all at h
  cases h with
  | nil => simp at hall
  | snoc hcalls hevent =>
    obtain ⟨rfl, hlast⟩ := List.append_inj' hall rfl
    cases hlast
    exact ⟨_, hcalls, hevent⟩

/-- The call gave up before its blobs were in the index. -/
def Event.FailsBeforeStore : Event → Prop
  | .saveBlob _ _ _ _ _ _ (some err) => err.beforeStore
  | _ => False

/-- The blob is in the index, or in a packer of a manager. -/
def RepoState.Stored (s : RepoState) (bh : BlobHandle) : Prop :=
  s.idx.lookup bh ≠ [] ∨
    ∃ t, ∃ p ∈ (s.pm t).packers, ∃ blob ∈ p.packer.blobs, blob.toBlobHandle = bh

def Repo.blobID (r : Repo) (id : ID) (buf : Bytes) : ID :=
  if id.isNull then r.hash buf else id

/-! ## Every call gets as far as `StorePack` -/

/-- No blob is counted, so that all calls are covered. -/
def uncounted (r : Repo) (start : RepoState) : Setting where
  key := r.key
  fresh _ := False
  passed _ _ := True
  start := start

section Runs

variable {r : Repo} {start s s' : RepoState}

variable {t : BlobType} {buf : Bytes} {id : ID}

private theorem saveBlob_runs {newID : ID} {storeDuplicate known : Bool} {err : Option SaveError}
    {m : Multiset Token} (h : Sound (uncounted r start) s m)
    (hruns : Runs system (r.saveBlob t buf id storeDuplicate) s (newID, known, err) s') :
    ∃ m', Sound (uncounted r start) s' (m' + m) ∧
      BlobPost ⟨r.blobID id buf, t⟩ storeDuplicate (newID, known, err) s' m' := by
  obtain ⟨m', hsound, -, hpost⟩ := Logic.wp_runs
    (wp_saveBlob rfl rfl trivial fun _ => not_false) (by rwa [zero_add]) hruns
  exact ⟨m', hsound, hpost⟩

theorem Calls.sound {events : List Event} (h : Calls r start events s) (hopened : start.Opened)
    (hstored : ∀ event ∈ events, ¬ event.FailsBeforeStore) :
    ∃ m, Sound (uncounted r start) s m ∧ heldBy m = 0 := by
  induction h with
  | nil => exact ⟨0, Sound.opened (c := uncounted r start) hopened nofun, rfl⟩
  | @snoc events event s s' _ hevent ih =>
    obtain ⟨m, hsound, hheld⟩ := ih fun event hevent => hstored event (by simp [hevent])
    cases event with
    | saveBlob t buf id storeDuplicate newID known err =>
      obtain ⟨m', hsound', hpost⟩ := saveBlob_runs hsound hevent
      refine ⟨m' + m, hsound', ?_⟩
      rw [heldBy_add, hheld, add_zero]
      refine hpost.stored fun failure hfailure => ?_
      obtain rfl : err = some failure := hfailure
      exact Bool.eq_false_iff.mpr (hstored _ (List.mem_append_right _ (List.mem_singleton_self _)))
    | flushPacks err =>
      obtain ⟨m', hsound', -, hpost⟩ := Logic.wp_runs
        (wp_flushPacks rfl s) (by rwa [zero_add]) hevent
      exact ⟨m' + m, hsound', by rw [heldBy_add, hheld, hpost.held, add_zero]⟩

theorem RepoState.stored_of_has {c : Setting} {bh : BlobHandle} {m : Multiset Token}
    (h : Sound c s m) (hstart : c.start.idx.pendingBlobs = ∅) (hheld : heldBy m = 0)
    (hhas : s.idx.has bh) : s.Stored bh := by
  rcases has_iff.mp hhas with hpending | ⟨pb, hpb, rfl⟩
  · right
    have hin := h.pending bh hpending
    rw [hstart, RepoState.held, hheld, add_zero, RepoState.heldIn] at hin
    replace hin := hin.resolve_right (Finset.notMem_empty bh)
    obtain ⟨p, hp, hbh⟩ := Multiset.mem_bind.mp hin
    rw [Packer.handles, Multiset.mem_coe, List.mem_map] at hbh
    rcases Multiset.mem_add.mp hp with hp | hp
    · exact ⟨.data, p, hp, hbh⟩
    · exact ⟨.tree, p, hp, hbh⟩
  · left
    exact List.ne_nil_of_mem (mem_lookup.mpr ⟨hpb, rfl⟩)

theorem stored_of_no_failure {events : List Event} {t : BlobType}
    {buf : Bytes} {id newID : ID} {known : Bool} (hopened : start.Opened)
    (hcalls : Calls r start (events ++ [.saveBlob t buf id false newID known none]) s)
    (hstored : ∀ event ∈ events, ¬ event.FailsBeforeStore) :
    s.Stored ⟨r.blobID id buf, t⟩ ∧
      ∀ s', Runs system r.flushPacks s none s' →
        ∃ pb ∈ s'.idx.lookup ⟨r.blobID id buf, t⟩,
          pb ∈ start.idx.content ∨
            ∃ content, s'.packs.load pb.packID = some content := by
  obtain ⟨before, hbefore, hlast⟩ := hcalls.snoc_inv
  obtain ⟨m, hsound, hheld⟩ := hbefore.sound hopened hstored
  obtain ⟨m', hsound, hpost⟩ := saveBlob_runs hsound hlast
  have hnone : heldBy (m' + m) = 0 := by rw [heldBy_add, hpost.stored nofun, hheld, add_zero]
  refine ⟨stored_of_has hsound hopened.pending hnone hpost.has, fun s' hflush => ?_⟩
  obtain ⟨hsound', hlater, hheld'⟩ := hsound.flushed rfl hflush
  have hentry : ∃ pb ∈ s'.idx.content, pb.toBlobHandle = ⟨r.blobID id buf, t⟩ := by
    rcases has_iff.mp (hlater.has _ hpost.has) with hpending | hpb
    · have hin := hsound'.pending _ hpending
      rw [hheld', hnone] at hin
      simp [uncounted, hopened.pending] at hin
    · exact hpb
  obtain ⟨pb, hpb, hbh⟩ := hentry
  exact ⟨pb, mem_lookup.mpr ⟨hpb, hbh⟩, hsound'.stored pb hpb⟩

/-! ## A call that fails earlier -/

theorem saveBlob_known (hhas : s.idx.has ⟨r.blobID id buf, t⟩) :
    Runs system (r.saveBlob t buf id false) s (r.blobID id buf, true, none) s :=
  Runs.perform false ⟨s.idx, if_pos hhas, rfl⟩ .ret

/-- The blob is announced and nothing else has changed. -/
def RepoState.announce (s : RepoState) (bh : BlobHandle) : RepoState :=
  { s with
    idx := { s.idx with pendingBlobs := insert bh s.idx.pendingBlobs } }

theorem RepoState.has_announce (s : RepoState) (bh : BlobHandle) : (s.announce bh).idx.has bh :=
  has_iff.mpr (Or.inl (Finset.mem_insert_self _ _))

theorem saveBlob_tempFile (ht : t ≠ .invalid) (hhas : s.idx.has ⟨r.blobID id buf, t⟩ = false)
    (hmanager : s.pm t = ⟨[], false⟩) (nonce : Nonce) : Runs system (r.saveBlob t buf id false) s
      (r.blobID id buf, false, some .tempFile) (s.announce ⟨r.blobID id buf, t⟩) := by
  refine Runs.perform true ⟨_, if_neg (Bool.not_eq_true _ ▸ hhas), rfl⟩ (Runs.bind ?_ .ret)
  refine Runs.perform nonce rfl ?_
  rw [if_neg ht]
  have hfind : exec (.findPacker t) (s.announce ⟨r.blobID id buf, t⟩) none
      (s.announce ⟨r.blobID id buf, t⟩) := by
    simp [exec, RepoState.announce, hmanager, takePacker]
  exact Runs.perform none hfind .ret

/-- A failure that the next call does not see: for every new blob there is a run
of two calls whose second one reports no error with nothing stored. -/
theorem unstored_after_tempFile (hopened : start.Opened) (t : BlobType) (buf : Bytes) (id : ID)
    (ht : t ≠ .invalid) (hhas : start.idx.has ⟨r.blobID id buf, t⟩ = false) (nonce : Nonce) :
    ∃ s, Calls r start ([.saveBlob t buf id false (r.blobID id buf) false (some .tempFile)] ++
          [.saveBlob t buf id false (r.blobID id buf) true none]) s ∧
      ¬ s.Stored ⟨r.blobID id buf, t⟩ := by
  refine ⟨start.announce ⟨r.blobID id buf, t⟩, ?_, ?_⟩
  · have hfirst : Calls r start ([] ++ [.saveBlob t buf id false
        (r.blobID id buf) false (some .tempFile)]) (start.announce ⟨r.blobID id buf, t⟩) := by
      refine .snoc .nil (saveBlob_tempFile ht hhas ?_ nonce)
      rw [hopened.managers]
    exact .snoc hfirst (saveBlob_known (has_announce _ _))
  · rintro (hlookup | ⟨t', p, hp, -⟩)
    · obtain ⟨pb, hpb⟩ := List.exists_mem_of_ne_nil _ hlookup
      obtain ⟨hcontent, hbh⟩ := mem_lookup.mp hpb
      have hknown : start.idx.has ⟨r.blobID id buf, t⟩ := has_iff.mpr (Or.inr ⟨pb, hcontent, hbh⟩)
      rw [hhas] at hknown
      cases hknown
    · rw [RepoState.announce, hopened.managers] at hp
      cases hp

end Runs

theorem length_sampleHash : (List.replicate idSize (7 : UInt8)).length = idSize := by simp

def sampleRepo : Repo where
  key := sampleKey
  hash _ := ⟨List.replicate idSize 7, length_sampleHash⟩
  noAutoIndexUpdate := true

def sampleStart : RepoState := .new (fun _ _ => 0) 0

/-- The second call finds the blob in the open packer. -/
theorem stored_of_no_failure_twice :
    ∃ s, Calls sampleRepo sampleStart
        ([.saveBlob .data [] .null false (sampleRepo.blobID .null []) false
            none] ++
          [.saveBlob .data [] .null false (sampleRepo.blobID .null []) true none]) s ∧
      s.Stored ⟨sampleRepo.blobID .null [], .data⟩ := by
  have hopened : sampleStart.Opened := opened_new _ _
  have hfirst : Calls sampleRepo sampleStart ([] ++ [.saveBlob .data [] .null
      false (sampleRepo.blobID .null []) false none]) _ :=
    .snoc .nil (runs_of_play (playback sampleNonce fun _ _ => none) rfl)
  have hcalls : Calls sampleRepo sampleStart (_ ++ [.saveBlob .data [] .null
      false (sampleRepo.blobID .null []) true none]) _ := .snoc hfirst (saveBlob_known rfl)
  refine ⟨_, hcalls, (stored_of_no_failure hopened hcalls ?_).1⟩
  simp [Event.FailsBeforeStore]

theorem not_stored_always :
    ¬ ∀ (r : Repo) (start s : RepoState) (events : List Event) (t : BlobType)
      (buf : Bytes) (id newID : ID) (known : Bool), start.Opened →
      Calls r start (events ++ [.saveBlob t buf id false newID known none]) s →
      s.Stored ⟨r.blobID id buf, t⟩ := by
  intro hall
  have hopened : sampleStart.Opened := opened_new _ _
  obtain ⟨s, hcalls, hunstored⟩ :=
    @unstored_after_tempFile sampleRepo sampleStart hopened .data [] .null
      (by decide) rfl sampleNonce
  exact hunstored (hall _ _ _ _ _ _ _ _ _ hopened hcalls)

end Rapi.Repository
