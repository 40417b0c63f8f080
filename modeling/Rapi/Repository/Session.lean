import Rapi.Foundation.Playback
import Rapi.Repository.SaveSpec

/-!
# A session with a repository

What holds when a repository has been opened, and what a flush without any
concurrent call leaves: the lists of both managers are empty, so that nothing is
pending that no call carries.
-/

namespace Rapi.Repository

open Foundation Crypto Restic Option Prog

/-! ## The start -/

/-- The index may have any entries. -/
structure RepoState.Opened (s : RepoState) : Prop where
  pending : s.idx.pendingBlobs = ∅
  managers : s.pm = fun _ => ⟨[], false⟩

def RepoState.new (seed : BlobType → ID → Nat) (now : Nat) : RepoState where
  idx := .new seed now
  pm _ := ⟨[], false⟩
  packs := []
  indexFiles := []

theorem RepoState.opened_new (seed : BlobType → ID → Nat) (now : Nat) :
    (RepoState.new seed now).Opened := ⟨rfl, rfl⟩

theorem Sound.opened {c : Setting} (h : c.start.Opened)
    (hfresh : ∀ bh, c.fresh bh → c.start.idx.has bh = false) : Sound c c.start 0 := by
  have hopen : c.start.openPackers = 0 := by
    rw [RepoState.openPackers, h.managers]
    rfl
  have hheld : c.start.held 0 = 0 := by
    rw [RepoState.held, RepoState.heldIn, hopen]
    rfl
  constructor
  · rw [h.pending]
    simp
  · exact fun _ => id
  · exact fun _ => Or.inl
  · rintro pb ⟨idx, hidx, -, hpb⟩
    exact Or.inl (Or.inl (MasterIndex.mem_content.mpr ⟨idx, hidx, hpb⟩))
  · simp
  · intro _
    refine ⟨?_, fun bh hnew => ?_, by simp⟩
    · simp [hheld, h.pending]
    · rw [hheld, RepoState.entries, Multiset.countP_eq_zero.mpr]
      · simp
      · rintro pb hpb rfl
        have hhas : c.start.idx.has pb.toBlobHandle :=
          MasterIndex.has_iff.mpr (Or.inr ⟨pb, hpb, rfl⟩)
        rw [hfresh _ hnew] at hhas
        cases hhas
  · exact fun _ => ⟨by simp [hopen], by simp, by simp⟩
  · exact fun _ => ⟨fun _ => Or.inl, fun _ => Or.inl, by simp, fun _ => Or.inl⟩

/-! ## A flush alone -/

/-- The actions that have nothing to do with the managers. -/
def Op.KeepsManagers : Op → Prop
  | .findPacker _ => False
  | .insertPacker _ _ => False
  | .lockPackers _ => False
  | .unlockPackers _ _ => False
  | _ => True

/-- The actions that save no pack. -/
def Op.KeepsPacks : Op → Prop
  | .savePack _ _ _ => False
  | _ => True

theorem exec_keeps {op : Op} {s : RepoState} {res : op.Res} {s' : RepoState}
    (h : exec op s res s') :
    (op.KeepsManagers → s'.pm = s.pm) ∧ (op.KeepsPacks → s'.packs = s.packs) := by
  cases op with
  | panic => exact h.elim
  | findPacker =>
    obtain ⟨-, h⟩ := h
    refine ⟨False.elim, fun _ => ?_⟩
    split at h <;> simp [h.2, RepoState.setManager]
  | insertPacker => exact ⟨False.elim, by simp [h.2, RepoState.setManager]⟩
  | lockPackers => exact ⟨False.elim, by simp [h.2.2, RepoState.setManager]⟩
  | unlockPackers =>
    cases h
    exact ⟨False.elim, fun _ => rfl⟩
  | savePack =>
    refine ⟨fun _ => ?_, False.elim⟩
    rcases h with ⟨-, -, -, rfl⟩ | ⟨-, rfl | ⟨-, part, rfl⟩⟩ <;> rfl
  | newRandomNonce | systemFault =>
    cases h
    simp
  | writeFault | seekFault => simp [h.2]
  | addPending | finalizeNotFinalIndexes =>
    obtain ⟨mi, -, rfl⟩ := h
    simp
  | storePack =>
    obtain ⟨seed, now, mi, -, rfl⟩ := h
    simp
  | finalizeFullIndexes =>
    obtain ⟨now, mi, -, rfl⟩ := h
    simp
  | saveIndexFile => rcases h with ⟨id, -, rfl⟩ | ⟨-, rfl⟩ <;> simp
  | mergeFinalIndexes =>
    simp only [exec] at h
    split at h <;> simp [h.2]

theorem exec_keepsManagers (op : Op) (s : RepoState) (res : op.Res) (s' : RepoState)
    (hop : op.KeepsManagers) (h : exec op s res s') : s'.pm = s.pm := (exec_keeps h).1 hop

theorem exec_keepsPacks (op : Op) (s : RepoState) (res : op.Res) (s' : RepoState)
    (hop : op.KeepsPacks) (h : exec op s res s') : s'.packs = s.packs := (exec_keeps h).2 hop

section Programs

variable (r : Repo)

theorem saveIndexes_all {P : Op → Prop} (hsave : ∀ file, P (.saveIndexFile file))
    (hmerge : P .mergeFinalIndexes) (hpanic : P .panic) (indexes : List Index) :
    (saveIndexes indexes).All P := by
  induction indexes with
  | nil =>
    refine All.perform hmerge fun err => ?_
    cases err <;> exact trivial
  | cons idx rest ih =>
    unfold saveIndexes
    cases idx.encode with
    | none => exact ⟨hpanic, fun res => by cases res⟩
    | some file =>
      refine All.perform (hsave file) fun failed => ?_
      split
      · exact trivial
      · exact ih

theorem storePacker_all {P : Op → Prop} (hfault : P .systemFault)
    (hstore : ∀ id blobs, P (.storePack id blobs)) (hfull : P .finalizeFullIndexes)
    (hsave : ∀ indexes, (saveIndexes indexes).All P) (id : ID) (p : Packer) :
    (r.storePacker id p).All P := by
  refine All.perform hfault fun closeFault => ?_
  split
  · exact trivial
  refine All.perform hfault fun removeFault => ?_
  split
  · exact trivial
  refine All.perform (hstore _ _) fun _ => ?_
  split
  · exact trivial
  · refine All.bind ?_ fun _ => trivial
    exact All.perform hfull hsave

theorem saveIndexes_keepsManagers (indexes : List Index) :
    (saveIndexes indexes).All Op.KeepsManagers :=
  saveIndexes_all (fun _ => trivial) trivial trivial indexes

theorem savePacker_keepsManagers (p : Packer) : (r.savePacker p).All Op.KeepsManagers := by
  refine All.perform trivial fun nonce => ?_
  refine All.perform trivial fun headerFault => ?_
  refine All.perform trivial fun lengthFault => ?_
  split
  · exact trivial
  · refine All.perform trivial fun seekFault => ?_
    cases seekFault with
    | some position => exact trivial
    | none =>
      refine All.perform trivial fun fault => ?_
      cases fault with
      | some position => exact trivial
      | none =>
        exact storePacker_all r trivial (fun _ _ => trivial) trivial saveIndexes_keepsManagers _ _

theorem savePackers_keepsManagers (packers : List Packer) :
    (r.savePackers packers).All Op.KeepsManagers := by
  induction packers with
  | nil => exact trivial
  | cons p rest ih =>
    refine All.bind (savePacker_keepsManagers r p) fun result => ?_
    split
    · exact trivial
    · exact All.bind ih fun _ => trivial

end Programs

variable {r : Repo} {s s' : RepoState}

theorem flushManager_inv {P : (op : Op) → op.Res → Prop} {t : BlobType} {err : Option SaveError}
    (h : Runs (system.restrict P) (r.flushManager t) s err s') : ∃ packers' mid,
      Runs (system.restrict P) (r.savePackers (s.pm t).packers)
        (s.setManager t ⟨[], true⟩) (packers', err) mid ∧
      s' = mid.setManager t ⟨if err = none then [] else packers', false⟩ ∧
      s'.pm = Function.update s.pm t ⟨if err = none then [] else packers', false⟩ := by
  obtain ⟨packers, _, ⟨⟨-, rfl, rfl⟩, -⟩, hlocked⟩ := h.perform_inv
  obtain ⟨⟨packers', failure⟩, mid, hsave, hsaved⟩ := hlocked.bind_inv
  have hpm := hsave.of_restrict.unchanged exec_keepsManagers (savePackers_keepsManagers r _)
  cases failure with
  | some | none =>
    obtain ⟨_, _, ⟨hunlock, -⟩, hreturn⟩ := hsaved.perform_inv
    cases hreturn
    cases hunlock
    refine ⟨packers', mid, hsave, ?_, ?_⟩ <;> simp [RepoState.setManager, hpm]

theorem flushManager_pm {t : BlobType} (h : Runs system (r.flushManager t) s none s') :
    s'.pm = Function.update s.pm t ⟨[], false⟩ := by
  obtain ⟨packers', mid, -, -, hpm⟩ :=
    flushManager_inv (h.restrict (P := fun _ _ => True) fun _ _ => trivial)
  exact hpm

theorem flushPacks_pm (h : Runs system r.flushPacks s none s') : s'.openPackers = 0 := by
  obtain ⟨err, mid, hdata, hrest⟩ := h.bind_inv
  cases err with
  | some err => cases hrest
  | none =>
    rw [RepoState.openPackers, flushManager_pm hrest, flushManager_pm hdata]
    simp

theorem flush_openPackers (h : Runs system r.flush s none s') : s'.openPackers = 0 := by
  obtain ⟨err, mid, hpacks, hrest⟩ := h.bind_inv
  cases err with
  | some err => cases hrest
  | none =>
    have hopen := flushPacks_pm hpacks
    dsimp only at hrest
    split at hrest
    · cases hrest
      exact hopen
    · have hpm := hrest.unchanged exec_keepsManagers (All.perform trivial saveIndexes_keepsManagers)
      rwa [RepoState.openPackers, hpm]

/-! ## Runs that can be evaluated -/

deriving instance DecidableEq for Index.MergeError, SaveError

/-- The actions succeed unless there is a fault, and a new index file has a name that
is not in use. -/
def playback (nonce : Nonce) (fault : Op → RepoState → Option Nat) : Playback system where
  answer
  | .addPending bh, s =>
    let added := s.idx.addPending bh
    some ⟨(added.1, { s with idx := added.2 }), _, rfl, rfl⟩
  | .newRandomNonce, s => some ⟨(nonce, s), rfl⟩
  | .findPacker t, s =>
    if hfree : (s.pm t).locked = false then
      match htake : takePacker (s.pm t).packers with
      | some (p, rest) => some ⟨(some p, s.setManager t ⟨rest, false⟩), hfree, by simp [htake]⟩
      | none =>
        let found := if (fault (.findPacker t) s).isSome then none else some .new
        some ⟨(found, s), hfree, by simp [htake, found, em]⟩
    else none
  | .insertPacker t p, s =>
    if hfree : (s.pm t).locked = false then
      some ⟨((), s.setManager t ⟨(s.pm t).packers ++ [p], false⟩), hfree, rfl⟩
    else none
  | .writeFault closed, s =>
    some ⟨(if closed then some 0 else none, s), fun hclosed => by simp [hclosed], rfl⟩
  | .seekFault closed, s =>
    some ⟨(if closed then some 0 else none, s), fun hclosed => by simp [hclosed], rfl⟩
  | .savePack id content intact, s =>
    if hfault : (fault (.savePack id content intact) s).isSome then
      some ⟨(fault (.savePack id content intact) s, s), .inr ⟨hfault, .inl rfl⟩⟩
    else if hnew : id ∉ s.packs.names ∧ intact then
      some ⟨(none, { s with packs := s.packs.save id content }), .inl ⟨rfl, hnew.1, hnew.2, rfl⟩⟩
    else none
  | .systemFault, s => some ⟨((fault .systemFault s).isSome, s), rfl⟩
  | .storePack id blobs, s =>
    (s.idx.storePack id blobs (.new (fun _ _ => 0) 0)).attach.map fun ⟨mi, hmi⟩ =>
      ⟨((), { s with idx := mi }), _, _, mi, hmi, rfl⟩
  | .finalizeFullIndexes, s =>
    let found := s.idx.finalizeFullIndexes 0
    some ⟨(found.1, { s with idx := found.2 }), _, _, rfl, rfl⟩
  | .finalizeNotFinalIndexes, s =>
    let found := s.idx.finalizeNotFinalIndexes
    some ⟨(found.1, { s with idx := found.2 }), _, rfl, rfl⟩
  | .saveIndexFile file, s =>
    let id : ID := .ofNat s.indexFiles.length
    if (fault (.saveIndexFile file) s).isSome then some ⟨(true, s), .inr ⟨rfl, rfl⟩⟩
    else if hnew : id ∉ s.indexFiles.names then
      some ⟨(false, { s with indexFiles := s.indexFiles.save id file }), .inl ⟨id, hnew, rfl⟩⟩
    else none
  | .mergeFinalIndexes, s =>
    match hmerge : s.idx.mergeFinalIndexes with
    | .ok mi => some ⟨(none, { s with idx := mi }), by simp [system, exec, hmerge]⟩
    | .error failure => some ⟨(some failure, s), by simp [system, exec, hmerge]⟩
  | .lockPackers t, s =>
    if hfree : (s.pm t).locked = false then
      some ⟨((s.pm t).packers, s.setManager t ⟨[], true⟩), hfree, rfl, rfl⟩
    else none
  | .unlockPackers t packers, s =>
    some ⟨((), s.setManager t ⟨(s.pm t).packers ++ packers, false⟩), rfl⟩
  | .panic, _ => none

/-- The state after a pack was stored and the index was changed. -/
def RepoState.stored (s : RepoState) (id : ID) (content : Bytes) (mi : MasterIndex) : RepoState :=
  { s with idx := mi, packs := s.packs.save id content }

/-! ## The invariant after a flush -/

variable {c : Setting} {m : Multiset Token}

theorem Sound.flushed (h : Sound c s m) (hkey : c.key = r.key)
    (hflush : Runs system r.flushPacks s none s') :
    Sound c s' m ∧ Later s s' ∧ s'.held m = heldBy m := by
  obtain ⟨m', hsound, hlater, hpost⟩ :=
    Logic.wp_runs (wp_flushPacks hkey s) (by rwa [zero_add]) hflush
  rw [hpost.success rfl, zero_add] at hsound
  refine ⟨hsound, hlater, ?_⟩
  rw [RepoState.held, RepoState.heldIn, flushPacks_pm hflush]
  simp

theorem Sound.flushedIndex (h : Sound c s m) (hkey : c.key = r.key)
    (hflush : Runs system r.flush s none s') :
    Sound c s' m ∧ Later s s' ∧ s'.held m = heldBy m := by
  obtain ⟨m', hsound, hlater, hpost⟩ := Logic.wp_runs (wp_flush hkey s) (by rwa [zero_add]) hflush
  rw [hpost.success rfl, zero_add] at hsound
  refine ⟨hsound, hlater, ?_⟩
  rw [RepoState.held, RepoState.heldIn, flush_openPackers hflush]
  simp

end Rapi.Repository
