import Rapi.Repository.SaveOutcomes

/-!
# Uploads of a flush

`FlushPacks` saves the packers of both managers one after the other.  A packer
whose upload is rejected stays in the list, and so do those that were uploaded
before it, whose files are closed by then.
-/

namespace Rapi.Repository

open Foundation Crypto Restic List Store

def listed (packers : List Packer) (ids : List ID) : Multiset PackedBlob :=
  (List.zipWith Packer.entries packers ids).sum

theorem listed_append {packers more : List Packer} {ids others : List ID}
    (h : packers.length = ids.length) : listed (packers ++ more) (ids ++ others) =
      listed packers ids + listed more others := by
  rw [listed, zipWith_append h, sum_append]
  rfl

/-- The packers are stored under the given IDs, which are new and different. -/
structure Uploaded (r : Repo) (drawn : Nonce → Prop) (s s' : RepoState)
    (packers : List Packer) (ids : List ID) : Prop where
  stored : List.Forall₂ (fun p id => p.tmpfile.closed = false ∧
    ∃ nonce p' bytesWritten, drawn nonce ∧
      p.finalize r.key nonce none none = (p', .ok bytesWritten) ∧
      r.intact p' ∧ s'.packs.load id = some p'.tmpfile.content) packers ids
  fresh : ∀ id ∈ ids, id ∉ s.packs.names
  nodup : ids.Nodup
  present : ∀ id ∈ ids, id ∈ s'.packs.names
  loads : ∀ id content, s.packs.load id = some content → s'.packs.load id = some content
  names : s.packs.names ⊆ s'.packs.names
  adds : Adds s.idx s'.idx (listed packers ids)

namespace Uploaded

variable {r : Repo} {drawn : Nonce → Prop} {s s' mid : RepoState}
  {packers more : List Packer} {ids others : List ID}

theorem nothing (hidx : s'.idx = s.idx) (hloads : ∀ id content, s.packs.load id = some content →
      s'.packs.load id = some content) (hnames : s.packs.names ⊆ s'.packs.names) :
    Uploaded r drawn s s' [] [] where
  stored := .nil
  fresh := nofun
  nodup := .nil
  present := nofun
  loads := hloads
  names := hnames
  adds := hidx ▸ .refl _

theorem trans (h : Uploaded r drawn s mid packers ids) (h' : Uploaded r drawn mid s' more others) :
    Uploaded r drawn s s' (packers ++ more) (ids ++ others) where
  stored := by
    refine rel_append (h.stored.imp ?_) h'.stored
    rintro p id ⟨hopen, nonce, p', bytesWritten, hnonce, hfinalize, hintact, hload⟩
    exact ⟨hopen, nonce, p', bytesWritten, hnonce, hfinalize, hintact, h'.loads _ _ hload⟩
  fresh := by
    intro id hid
    rcases mem_append.mp hid with hid | hid
    · exact h.fresh id hid
    · exact fun hold => h'.fresh id hid (h.names hold)
  nodup := by
    refine nodup_append.mpr ⟨h.nodup, h'.nodup, ?_⟩
    rintro id hid _ hid' rfl
    exact h'.fresh id hid' (h.present id hid)
  present := by
    intro id hid
    rcases mem_append.mp hid with hid | hid
    · exact h'.names (h.present id hid)
    · exact h'.present id hid
  loads := fun id content hload => h'.loads id content (h.loads id content hload)
  names := fun _ hid => h'.names (h.names hid)
  adds := by
    rw [listed_append h.stored.length_eq]
    exact h.adds.trans h'.adds

theorem anyNonce (h : Uploaded r drawn s s' packers ids) :
    Uploaded r (fun _ => True) s s' packers ids :=
  { h with
    stored := h.stored.imp fun _ _ ⟨hopen, nonce, p', bytesWritten, _, hrest⟩ =>
        ⟨hopen, nonce, p', bytesWritten, trivial, hrest⟩ }

theorem of_setManager {t : BlobType} {pm pm' : PackerManager}
    (h : Uploaded r drawn (s.setManager t pm) mid packers ids) :
    Uploaded r drawn s (mid.setManager t pm') packers ids :=
  ⟨h.stored, h.fresh, h.nodup, h.present, h.loads, h.names, h.adds⟩

end Uploaded

section Runs

variable {r : Repo} {P : Answers} {s s' : RepoState} {p q : Packer}
  {packers packers' : List Packer} {err : Option SaveError} {t : BlobType}

theorem Packer.entries_finalize {k : Key} {nonce : Nonce}
    {headerFault lengthFault : Pack.WriteFault} {p' : Packer} {result : Except Pack.Error Nat}
    (id : ID) (h : p.finalize k nonce headerFault lengthFault = (p', result)) :
    p'.entries id = p.entries id := by
  have hpacker : p'.packer = (p.packer.finalize k nonce headerFault lengthFault).1 :=
    congrArg (fun result => result.1.packer) h.symm
  rw [entries, hpacker, Pack.Packer.blobs_finalize]
  rfl

theorem Store.names_subset_save {κ ν : Type} (store : Store κ ν) (name : κ)
    (content : ν) : store.names ⊆ (store.save name content).names :=
  fun _ => mem_cons_of_mem _

theorem Outcome.uploads (h : Outcome r P p s q none s') : q.tmpfile.closed ∧ s'.pm = s.pm ∧
      ∃ id, Uploaded r (P .newRandomNonce) s s' [p] [id] := by
  obtain ⟨hopen, nonce, p', bytesWritten, hnonce, hfinalize, hintact, rfl, hpm, hfresh,
    hpacks, hadds⟩ := h.ok
  refine ⟨rfl, hpm, r.hash p'.packer.wr, ?_⟩
  rw [Packer.entries_finalize _ hfinalize] at hadds
  exact {
    stored := .cons ⟨hopen, nonce, p', bytesWritten, hnonce, hfinalize, hintact,
      by rw [hpacks, load_save_self]⟩ .nil
    fresh := by simpa using hfresh
    nodup := nodup_singleton _
    present := by simp [hpacks, Store.names, Store.save]
    loads := fun id content hload => by
      rw [hpacks]
      exact load_save_of_load hfresh hload
    names := by
      rw [hpacks]
      exact Store.names_subset_save _ _ _
    adds := by simpa [listed] using hadds }

theorem savePackers_uploads
    (h : Runs (system.restrict P) (r.savePackers packers) s (packers', none) s') :
    (∀ q ∈ packers', q.tmpfile.closed) ∧
      packers'.length = packers.length ∧ s'.pm = s.pm ∧
      ∃ ids, Uploaded r (P .newRandomNonce) s s' packers ids := by
  induction packers generalizing s packers' with
  | nil =>
    cases h
    exact ⟨nofun, rfl, rfl, [], .nothing rfl (fun _ _ => id) (fun _ => id)⟩
  | cons p rest ih =>
    obtain ⟨⟨saved, err⟩, mid, hsave, hnext⟩ := h.bind_inv
    cases err with
    | some err => cases hnext
    | none =>
      obtain ⟨⟨others, err⟩, _, hothers, hreturn⟩ := hnext.bind_inv
      cases hreturn
      obtain ⟨hclosed, hpm, id, hfirst⟩ := (savePacker_outcome hsave).uploads
      obtain ⟨hall, hlength, hpm', ids, hrest⟩ := ih hothers
      exact ⟨forall_mem_cons.mpr ⟨hclosed, hall⟩,
        congrArg Nat.succ hlength, hpm'.trans hpm, _, hfirst.trans hrest⟩

theorem flushManager_uploads (h : Runs (system.restrict P) (r.flushManager t) s none s') :
    s'.pm = Function.update s.pm t ⟨[], false⟩ ∧
      ∃ ids, Uploaded r (P .newRandomNonce) s s' (s.pm t).packers ids := by
  obtain ⟨packers', mid, hsave, rfl, hpm⟩ := flushManager_inv h
  obtain ⟨-, -, -, ids, huploads⟩ := savePackers_uploads hsave
  exact ⟨hpm, ids, huploads.of_setManager⟩

def RepoState.heldPackers (s : RepoState) : List Packer :=
  (s.pm .data).packers ++ (s.pm .tree).packers

theorem flushPacks_uploads (h : Runs (system.restrict P) r.flushPacks s none s') :
    ∃ ids, Uploaded r (P .newRandomNonce) s s' s.heldPackers ids := by
  obtain ⟨err, mid, hdata, hrest⟩ := h.bind_inv
  cases err with
  | some err => cases hrest
  | none =>
    obtain ⟨hpm, ids, hfirst⟩ := flushManager_uploads hdata
    obtain ⟨-, others, hsecond⟩ := flushManager_uploads hrest
    have htree : mid.pm .tree = s.pm .tree := by rw [hpm, Function.update_of_ne (by decide)]
    rw [htree] at hsecond
    exact ⟨_, hfirst.trans hsecond⟩

/-! ## A rejected upload -/

/-- The packers before the rejected one were uploaded and are closed. -/
def Rejected (r : Repo) (packers packers' : List Packer) (s s' : RepoState) : Prop :=
  ∃ before p after before' nonce p' bytesWritten position ids, packers = before ++ p :: after ∧
    packers' = before' ++ p'.seekTo position :: after ∧
    before'.length = before.length ∧ (∀ q ∈ before', q.tmpfile.closed) ∧
    p.tmpfile.closed = false ∧
    p.finalize r.key nonce none none = (p', .ok bytesWritten) ∧
    Uploaded r (fun _ => True) s s' before ids

theorem Outcome.rejects (h : Outcome r P p s q (some .savePack) s') (after : List Packer) :
    s'.pm = s.pm ∧ Rejected r (p :: after) (q :: after) s s' := by
  generalize herr : some SaveError.savePack = err at h
  cases h with
  | unfinished | unsought => cases herr
  | uploaded _ _ _ _ _ hstore =>
    subst herr
    obtain ⟨-, -, hfailed, -⟩ := storePacker_spec hstore
    cases hfailed _ rfl
  | @rejected nonce p' bytesWritten _ position hopen hfinalize _ hleft =>
    have hnothing : s'.pm = s.pm ∧ Uploaded r (fun _ => True) s s' [] [] := by
      rcases hleft with rfl | ⟨hfresh, part, rfl⟩
      · exact ⟨rfl, .nothing rfl (fun _ _ => id) (fun _ => id)⟩
      · exact ⟨rfl, .nothing rfl (fun _ _ => load_save_of_load hfresh)
          (Store.names_subset_save _ _ _)⟩
    exact ⟨hnothing.1, [], p, after, [], nonce, p', bytesWritten, position, [],
      rfl, rfl, rfl, nofun, hopen, hfinalize, hnothing.2⟩

theorem savePackers_rejects
    (h : Runs system (r.savePackers packers) s (packers', some .savePack) s') :
    s'.pm = s.pm ∧ Rejected r packers packers' s s' := by
  induction packers generalizing s packers' with
  | nil => cases h
  | cons p rest ih =>
    obtain ⟨⟨saved, err⟩, mid, hsave, hnext⟩ := h.bind_inv
    have houtcome : Outcome r (fun _ _ => True) p s saved err mid :=
      savePacker_outcome (hsave.restrict fun _ _ => trivial)
    cases err with
    | some err =>
      cases hnext
      exact houtcome.rejects rest
    | none =>
      obtain ⟨⟨others, err⟩, _, hothers, hreturn⟩ := hnext.bind_inv
      cases hreturn
      obtain ⟨hclosed, hpm, id, hfirst⟩ := houtcome.uploads
      obtain ⟨hpm', before, p', after, before', nonce, finished, bytesWritten,
        position, ids, rfl, rfl, hlength, hall, hopen, hfinalize, huploads⟩ := ih hothers
      exact ⟨hpm'.trans hpm, p :: before, p', after, saved :: before', nonce,
        finished, bytesWritten, position, id :: ids, rfl, rfl,
        congrArg Nat.succ hlength, forall_mem_cons.mpr ⟨hclosed, hall⟩,
        hopen, hfinalize, hfirst.trans huploads⟩

theorem flushManager_rejects (h : Runs system (r.flushManager t) s (some .savePack) s') :
    ∃ packers', Rejected r (s.pm t).packers packers' s s' ∧
      s'.pm = Function.update s.pm t ⟨packers', false⟩ := by
  obtain ⟨packers', mid, hsave, rfl, hpm⟩ :=
    flushManager_inv (h.restrict (P := fun _ _ => True) fun _ _ => trivial)
  obtain ⟨-, before, p, after, before', nonce, p', bytesWritten, position, ids,
    hpackers, hpackers', hlength, hall, hopen, hfinalize, huploads⟩ :=
    savePackers_rejects hsave.of_restrict
  exact ⟨packers', ⟨before, p, after, before', nonce, p', bytesWritten, position,
    ids, hpackers, hpackers', hlength, hall, hopen, hfinalize, huploads.of_setManager⟩, hpm⟩

theorem flushPacks_rejects (h : Runs system r.flushPacks s (some .savePack) s') :
    ∃ uploaded before p after before' nonce p' bytesWritten position ids,
      s.heldPackers = uploaded ++ (before ++ p :: after) ∧
      s'.heldPackers = before' ++ p'.seekTo position :: after ∧
      before'.length = before.length ∧
      (∀ q ∈ before', q.tmpfile.closed) ∧ p.tmpfile.closed = false ∧
      p.finalize r.key nonce none none = (p', .ok bytesWritten) ∧
      Uploaded r (fun _ => True) s s' (uploaded ++ before) ids := by
  obtain ⟨err, mid, hdata, hrest⟩ := h.bind_inv
  cases err with
  | some err =>
    cases hrest
    obtain ⟨packers', ⟨before, p, after, before', nonce, p', bytesWritten,
      position, ids, hpackers, rfl, hlength, hall, hopen, hfinalize, huploads⟩,
      hpm⟩ := flushManager_rejects hdata
    refine ⟨[], before, p, after ++ (s.pm .tree).packers, before', nonce, p',
      bytesWritten, position, ids, ?_, ?_, hlength, hall, hopen, hfinalize, huploads⟩
    · simp [RepoState.heldPackers, hpackers]
    · simp [RepoState.heldPackers, hpm]
  | none =>
    obtain ⟨hdataPM, others, hfirst⟩ := flushManager_uploads (hdata.restrict fun _ _ => trivial)
    obtain ⟨packers', ⟨before, p, after, before', nonce, p', bytesWritten,
      position, ids, hpackers, rfl, hlength, hall, hopen, hfinalize, huploads⟩,
      hpm⟩ := flushManager_rejects hrest
    rw [hdataPM, Function.update_of_ne (by decide)] at hpackers
    refine ⟨(s.pm .data).packers, before, p, after, before', nonce, p',
      bytesWritten, position, _, ?_, ?_, hlength, hall, hopen, hfinalize, hfirst.trans huploads⟩
    · rw [RepoState.heldPackers, hpackers]
    · simp [RepoState.heldPackers, hpm, hdataPM]

end Runs

end Rapi.Repository
