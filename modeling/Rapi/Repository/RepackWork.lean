import Rapi.Repository.Repack
import Rapi.Repository.SaveSpec

/-!
# The work of repacking

A pack is in the hands of the feeder or a downloader, in one of the queues, in
the hands of a worker, or processed.  A blob of `keepBlobs` is still there, or
taken by a worker that is about to save it, or saved.  Workers take a blob only
from packs that list it, and a pack is processed when none of its blobs is left
in `keepBlobs`.
-/

namespace Rapi.Repository

open Foundation Crypto Restic Multiset Logic

namespace Repack

def ListedIn (k : Key) (content : Bytes) (bh : BlobHandle) : Prop :=
  ∃ blobs size, Pack.list k content content.length = .ok (blobs, size) ∧
    ∃ blob ∈ blobs, blob.toBlobHandle = bh

def Occurs (r : Repo) (packs : Finset ID) (store : Store ID Bytes) (bh : BlobHandle) : Prop :=
  ∃ id ∈ packs, ∃ content, store.load id = some content ∧ ListedIn r.key content bh

theorem Occurs.later {r : Repo} {packs : Finset ID} {s s' : RepoState} {bh : BlobHandle}
    (h : Occurs r packs s.packs bh) (hlater : Later s s') : Occurs r packs s'.packs bh := by
  obtain ⟨id, hid, content, hload, hlisted⟩ := h
  exact ⟨id, hid, content, hlater.packs id content hload, hlisted⟩

/-! ## The invariant -/

/-- What a goroutine has in hand: packs, blobs it is about to save, and the
blobs it saved. -/
abbrev Share := Multiset ID × Multiset BlobHandle × Multiset BlobHandle

structure Kept (r : Repo) (packs : Finset ID) (keepBlobs : Finset BlobHandle)
    (s : RepoState) (t : State) (n : Share) : Prop where
  work : packs.val = n.1 + t.downloadQueue + t.processQueue.map Job.hash + t.processed
  jobs : ∀ job ∈ t.processQueue, s.packs.load job.hash = some job.content
  processed : ∀ id ∈ t.processed, ∃ content,
    s.packs.load id = some content ∧ ∀ bh, ListedIn r.key content bh → bh ∉ t.keepBlobs
  keep : keepBlobs.val = t.keepBlobs.val + n.2.1 + t.saved.map Prod.fst
  logged : t.saved.map Prod.fst = n.2.2
  occurs : ∀ bh ∈ n.2.1 + n.2.2, Occurs r packs s.packs bh
  hashed : ∀ blob ∈ t.saved, r.hash blob.2 = blob.1.id

def State.Fed (t : State) : Prop := t.downloadClosed ∧ t.downloadQueue = []

def State.Drained (t : State) : Prop := t.processClosed ∧ t.processQueue = []

structure After (t t' : State) : Prop where
  keep : t'.keepBlobs ⊆ t.keepBlobs
  fed : t.Fed → t'.Fed
  drained : t.Drained → t'.Drained

theorem After.refl (t : State) : After t t := ⟨fun _ => id, id, id⟩

theorem After.trans {t t' t'' : State} (h : After t t') (h' : After t' t'') : After t t'' :=
  ⟨h'.keep.trans h.keep, h'.fed ∘ h.fed, h'.drained ∘ h.drained⟩

section Kept

variable {r : Repo} {packs : Finset ID} {keepBlobs : Finset BlobHandle}
  {s s' : RepoState} {t : State} {n : Share}

theorem Kept.later (h : Kept r packs keepBlobs s t n) (hlater : Later s s') :
    Kept r packs keepBlobs s' t n := by
  refine { h with jobs := ?_, processed := ?_, occurs := ?_ }
  · exact fun job hjob => hlater.packs _ _ (h.jobs job hjob)
  · intro id hid
    obtain ⟨content, hload, hgone⟩ := h.processed id hid
    exact ⟨content, hlater.packs _ _ hload, hgone⟩
  · exact fun bh hbh => (h.occurs bh hbh).later hlater

variable {w : Multiset ID} {k l : Multiset BlobHandle} {frame : Share}

theorem Kept.sendDownload (id : ID) (h : Kept r packs keepBlobs s t ((id ::ₘ w, k, l) + frame)) :
    Kept r packs keepBlobs s { t with downloadQueue := t.downloadQueue ++ [id] }
      ((w, k, l) + frame) := by
  refine { h with work := ?_ }
  rw [h.work]
  simp only [Prod.fst_add, ← singleton_add, ← coe_add, coe_singleton]
  abel

theorem Kept.receiveDownload {id : ID} {rest : List ID}
    (h : Kept r packs keepBlobs s t ((w, k, l) + frame)) (hqueue : t.downloadQueue = id :: rest) :
    Kept r packs keepBlobs s { t with downloadQueue := rest } ((id ::ₘ w, k, l) + frame) := by
  refine { h with work := ?_ }
  rw [h.work, hqueue]
  simp only [Prod.fst_add, ← cons_coe, ← singleton_add]
  abel

theorem Kept.sendProcess (job : Job)
    (h : Kept r packs keepBlobs s t ((job.hash ::ₘ w, k, l) + frame))
    (hload : s.packs.load job.hash = some job.content) : Kept r packs keepBlobs s
      { t with processQueue := t.processQueue ++ [job] } ((w, k, l) + frame) := by
  refine { h with work := ?_, jobs := ?_ }
  · rw [h.work]
    simp only [Prod.fst_add, ← singleton_add, List.map_append,
      List.map_cons, List.map_nil, ← coe_add, coe_singleton]
    abel
  · intro job' hjob
    rcases List.mem_append.mp hjob with hjob | hjob
    · exact h.jobs job' hjob
    · rwa [List.mem_singleton.mp hjob]

theorem Kept.receiveProcess {job : Job} {rest : List Job}
    (h : Kept r packs keepBlobs s t ((w, k, l) + frame)) (hqueue : t.processQueue = job :: rest) :
    Kept r packs keepBlobs s { t with processQueue := rest } ((job.hash ::ₘ w, k, l) + frame) ∧
      s.packs.load job.hash = some job.content := by
  have hjobs := h.jobs
  rw [hqueue] at hjobs
  refine ⟨{ h with work := ?_, jobs := ?_ }, hjobs job (by simp)⟩
  · rw [h.work, hqueue]
    simp only [Prod.fst_add, List.map_cons, ← cons_coe, ← singleton_add]
    abel
  · exact fun job' hjob => hjobs job' (List.mem_cons_of_mem _ hjob)

theorem Kept.take {bh : BlobHandle} (h : Kept r packs keepBlobs s t ((w, k, l) + frame))
    (hbh : bh ∈ t.keepBlobs) (hoccurs : Occurs r packs s.packs bh) :
    Kept r packs keepBlobs s { t with keepBlobs := t.keepBlobs.erase bh }
      ((w, bh ::ₘ k, l) + frame) := by
  refine { h with processed := ?_, keep := ?_, occurs := ?_ }
  · intro id hid
    obtain ⟨content, hload, hgone⟩ := h.processed id hid
    exact ⟨content, hload, fun bh' hbh' hmem => hgone bh' hbh' (Finset.mem_of_mem_erase hmem)⟩
  · have hsplit := cons_erase hbh
    rw [← Finset.erase_val] at hsplit
    rw [h.keep, ← hsplit]
    simp only [Prod.fst_add, Prod.snd_add, ← singleton_add]
    abel
  · intro bh' hmem
    simp only [Prod.snd_add, Prod.fst_add, cons_add, mem_cons] at hmem
    rcases hmem with rfl | hmem
    · exact hoccurs
    · exact h.occurs bh' hmem

theorem Kept.logSaved {bh : BlobHandle} {plaintext : Bytes}
    (h : Kept r packs keepBlobs s t ((w, bh ::ₘ k, l) + frame)) (hhash : r.hash plaintext = bh.id) :
    Kept r packs keepBlobs s { t with saved := (bh, plaintext) ::ₘ t.saved }
      ((w, k, bh ::ₘ l) + frame) := by
  refine { h with keep := ?_, logged := ?_, occurs := ?_, hashed := ?_ }
  · rw [h.keep, map_cons]
    simp only [Prod.fst_add, Prod.snd_add, ← singleton_add]
    abel
  · have hlogged := h.logged
    simp only [Prod.snd_add] at hlogged ⊢
    rw [map_cons, hlogged, cons_add]
  · intro bh' hmem
    refine h.occurs bh' ?_
    simp only [Prod.fst_add, Prod.snd_add, mem_add, mem_cons] at hmem ⊢
    tauto
  · intro blob hblob
    rcases mem_cons.mp hblob with rfl | hblob
    · exact hhash
    · exact h.hashed blob hblob

theorem Kept.progress {id : ID} {content : Bytes}
    (h : Kept r packs keepBlobs s t ((id ::ₘ w, k, l) + frame))
    (hload : s.packs.load id = some content)
    (hgone : ∀ bh, ListedIn r.key content bh → bh ∉ t.keepBlobs) :
    Kept r packs keepBlobs s { t with processed := id ::ₘ t.processed } ((w, k, l) + frame) := by
  refine { h with work := ?_, processed := ?_ }
  · rw [h.work]
    simp only [Prod.fst_add, ← singleton_add]
    abel
  · intro id' hid
    rcases mem_cons.mp hid with rfl | hid
    · exact ⟨content, hload, hgone⟩
    · exact h.processed id' hid

end Kept

/-! ## The goroutines -/

/-- The calls of `SaveBlob` in any state; nothing is said about the packers. -/
def setting (r : Repo) (start : RepoState) : Setting where
  key := r.key
  fresh _ := False
  passed _ _ := True
  start := start

def below (r : Repo) (start : RepoState) : Logic RepoState (Multiset Token) :=
  (logic (setting r start)).framed {.broken}

def upper (r : Repo) (start : RepoState) (packs : Finset ID)
    (keepBlobs : Finset BlobHandle) : Upper (below r start) State Share where
  inv := Kept r packs keepBlobs
  later := After
  refl := After.refl
  trans := After.trans
  stable hlater h := h.later hlater

def repackLogic (r : Repo) (start : RepoState) (packs : Finset ID) (keepBlobs : Finset BlobHandle) :
    Logic (RepoState × State) (Multiset Token × Share) :=
  (below r start).extend (upper r start packs keepBlobs)

@[simp] theorem below_busy {r : Repo} {start : RepoState} {m : Multiset Token} :
    (below r start).busy m ↔ .broken ∉ m := Iff.rfl

/-- A goroutine that is done with everything it had in hand. -/
structure Settled (m : Multiset Token × Share) : Prop where
  unbroken : .broken ∉ m.1
  held : heldBy m.1 = 0
  saved : savedBy m.1 = m.2.2.2
  packs : m.2.1 = 0
  taken : m.2.2.1 = 0

theorem Settled.zero : Settled 0 := ⟨by simp, rfl, rfl, rfl, rfl⟩

theorem Settled.add {m m' : Multiset Token × Share} (h : Settled m)
    (h' : Settled m') : Settled (m + m') := by
  constructor
  · simpa using ⟨h.unbroken, h'.unbroken⟩
  · simp [h.held, h'.held]
  · simp [h.saved, h'.saved]
  · simp [h.packs, h'.packs]
  · simp [h.taken, h'.taken]

/-- The queue that a goroutine has seen closed and empty. -/
def Role.Ended : Role → State → Prop
  | .feeder, _ => True
  | .downloader _, t => t.Fed
  | .closer, _ => True
  | .worker _, t => t.Drained

def Post (ended : State → Prop) (err : Option Error) (s : RepoState × State)
    (m : Multiset Token × Share) : Prop := err = none → Settled m ∧ ended s.2

section Goroutines

variable {r : Repo} {start : RepoState} {packs : Finset ID}
  {keepBlobs : Finset BlobHandle} {s : RepoState} {t : State}

theorem wp_feeder (order : List ID) :
    (repackLogic r start packs keepBlobs).wp (system r) (feeder order)
      (Post Role.feeder.Ended) (s, t) (0, ((order : Multiset ID), 0, 0)) := by
  induction order generalizing s t with
  | nil =>
    refine wp_onTop (by simp) fun s₁ t₁ frame _ _ hinv _ t' hexec => ?_
    cases hexec
    refine ⟨_, { hinv with }, ⟨fun _ => id, fun h => ⟨rfl, h.2⟩, id⟩, ?_⟩
    exact wp_pure fun _ _ _ => ⟨.zero, trivial⟩
  | cons packID rest ih =>
    refine wp_onTop (by simp) fun s₁ t₁ frame _ _ hinv sent t' hexec => ?_
    rcases hexec with ⟨rfl, hopen, rfl⟩ | ⟨rfl, -, rfl⟩
    · refine ⟨((rest : Multiset ID), 0, 0), Kept.sendDownload packID hinv,
        ⟨fun _ => id, ?_, id⟩, ih⟩
      exact fun h => by simp [State.Fed, hopen] at h
    · refine ⟨_, hinv, After.refl _, ?_⟩
      refine wp_onTop (by simp) fun s₂ t₂ frame _ _ hinv _ t' hexec => ?_
      cases hexec
      refine ⟨_, { hinv with }, ⟨fun _ => id, fun h => ⟨rfl, h.2⟩, id⟩, ?_⟩
      exact wp_pure fun _ _ => nofun

theorem wp_closer : (repackLogic r start packs keepBlobs).wp (system r) closer
      (Post Role.closer.Ended) (s, t) 0 := by
  refine wp_read (by simp) (fun _ _ _ _ h => h.2) fun s₁ t₁ _ _ _ _ _ _ => ?_
  refine wp_onTop (by simp) fun s₂ t₂ frame _ _ hinv _ t' hexec => ?_
  cases hexec
  refine ⟨_, { hinv with }, ⟨fun _ => id, id, fun h => ⟨rfl, h.2⟩⟩, ?_⟩
  exact wp_pure fun _ _ _ => ⟨.zero, trivial⟩

private theorem wp_downloadEnds {err : Option Error} {n : Share}
    {idle : Multiset Token × Share → Prop} (h : err = none → n = 0 ∧ t.Fed) :
    (repackLogic r start packs keepBlobs).wp (system r) (downloadEnds err)
      (Logic.loopPost idle (Post State.Fed)) (s, t) (0, n) := by
  refine wp_onTop (by simp) fun s₁ t₁ frame _ ht hinv _ t' hexec => ?_
  cases hexec
  refine ⟨n, { hinv with }, ⟨fun _ => id, id, id⟩, ?_⟩
  refine wp_pure fun s' hlater hnone => ?_
  obtain ⟨rfl, hfed⟩ := h hnone
  exact ⟨.zero, hlater.2.fed (ht.fed hfed)⟩

theorem wp_downloader : (repackLogic r start packs keepBlobs).wp (system r) (downloader r)
      (Logic.loopPost (· = 0) (Post State.Fed)) (s, t) 0 := by
  refine wp_onTop (by simp) fun s₁ t₁ frame _ _ hinv received t' hexec => ?_
  rcases hexec with
    ⟨packID, rest, hqueue, rfl, rfl⟩ | ⟨hqueue, hclosed, rfl, rfl⟩
  · refine ⟨_, hinv.receiveDownload hqueue, ⟨fun _ => id, ?_, id⟩, ?_⟩
    · exact fun h => by simp [State.Fed, hqueue] at h
    refine wp_read (by simp) (fun _ _ _ _ h => h.2) fun s₂ t₂ _ loaded _ _ _ hload => ?_
    cases loaded with
    | none => exact wp_downloadEnds nofun
    | some content =>
      dsimp only
      split
      · rename_i hhash
        refine wp_onTop (by simp) fun s₃ t₃ frame hs₃ _ hinv sent t' hexec => ?_
        rcases hexec with ⟨rfl, hopen, rfl⟩ | ⟨rfl, -, rfl⟩
        · refine ⟨_, Kept.sendProcess ⟨packID, content⟩ hinv ?_, ⟨fun _ => id, id, ?_⟩, ?_⟩
          · exact hs₃.packs _ _ (hload.1 content rfl hhash)
          · exact fun h => by simp [State.Drained, hopen] at h
          · exact wp_pure fun _ _ => rfl
        · exact ⟨_, hinv, After.refl _, wp_downloadEnds nofun⟩
      · exact wp_downloadEnds nofun
  · exact ⟨_, hinv, After.refl _, wp_downloadEnds fun _ => ⟨rfl, hclosed, hqueue⟩⟩

/-- The blobs are gone from `keepBlobs`, and those that were there are saved. -/
def BlobsPost (w : Multiset ID) (blobs : List BlobHandle) (err : Option Error)
    (s : RepoState × State) (m : Multiset Token × Share) : Prop :=
  err = none → ∃ tokens l, m = (tokens, w, 0, l) ∧
    Settled (tokens, 0, 0, l) ∧ ∀ bh ∈ blobs, bh ∉ s.2.keepBlobs

variable {m : Multiset Token} {w : Multiset ID} {l : Multiset BlobHandle}

private theorem wp_blobFails {blobs : List BlobHandle} {err : Error}
    {n : Multiset Token × Share} : (repackLogic r start packs keepBlobs).wp (system r)
      (pure (some err)) (BlobsPost w blobs) (s, t) n :=
  wp_pure fun _ _ => nofun

private theorem wp_saveBlobAgain {bh : BlobHandle} {plaintext : Bytes}
    (hhash : r.hash plaintext = bh.id) (hm : .broken ∉ m) : (below r start).wp Repository.system
      (r.saveBlob bh.type plaintext bh.id true) (fun result _ m' => result.2.2 = none →
        ∃ known, m' = accepted bh true known + m) s m := by
  have hid : bh.id = if bh.id.isNull then r.hash plaintext else bh.id := by rw [hhash, ite_self]
  have hsave : (below r start).wp Repository.system
      (r.saveBlob bh.type plaintext bh.id true) (BlobPost bh true) s 0 :=
    wp_framed (wp_saveBlob rfl hid trivial fun _ => id)
  have hframed := wp_frame hsave hm
  rw [zero_add] at hframed
  refine wp_mono hframed ?_
  rintro result s' m' - ⟨used, rfl, hpost⟩ hnone
  exact ⟨_, by rw [hpost.accepted hnone]⟩

theorem Settled.accepted (hm : Settled (m, 0, 0, l)) (bh : BlobHandle) (known : Bool) :
    Settled (accepted bh true known + m, 0, 0, bh ::ₘ l) := by
  have hsaved : savedBy (Rapi.Repository.accepted bh true known) = {bh} := by
    cases known <;> simp [Rapi.Repository.accepted]
  constructor
  · simpa using hm.unbroken
  · simpa using hm.held
  · have hl := hm.saved
    dsimp only at hl ⊢
    rw [savedBy_add, hsaved, hl, singleton_add]
  · rfl
  · rfl

theorem wp_saveKept {bh : BlobHandle} {plaintext : Bytes} (hhash : r.hash plaintext = bh.id)
    (hoccurs : Occurs r packs s.packs bh) (hm : Settled (m, 0, 0, l)) :
    (repackLogic r start packs keepBlobs).wp (system r)
      (saveKept r bh plaintext) (BlobsPost w [bh]) (s, t) (m, w, 0, l) := by
  refine wp_onTop hm.unbroken fun s₁ t₁ frame hs₁ _ hinv found t' hexec => ?_
  obtain ⟨rfl, rfl⟩ := hexec
  have hkeep : After t₁ { t₁ with keepBlobs := t₁.keepBlobs.erase bh } :=
    ⟨Finset.erase_subset _ _, id, id⟩
  have hgone : bh ∉ t₁.keepBlobs.erase bh := Finset.notMem_erase _ _
  by_cases hbh : bh ∈ t₁.keepBlobs
  · rw [decide_eq_true hbh]
    refine ⟨_, Kept.take hinv hbh (hoccurs.later hs₁), hkeep, ?_⟩
    refine wp_bind (wp_mono (wp_lift (wp_saveBlobAgain hhash hm.unbroken)) ?_)
    rintro ⟨_, _, err⟩ ⟨s₂, t₂⟩ ⟨m₂, _⟩ ⟨_, hafter⟩ ⟨hpost, rfl⟩
    cases err with
    | some err => exact wp_blobFails
    | none =>
      obtain ⟨known, hm₂⟩ := hpost rfl
      dsimp only at hm₂
      subst hm₂
      have hsettled := hm.accepted bh known
      refine wp_onTop hsettled.unbroken fun s₃ t₃ frame _ ht₃ hinv _ t' hexec => ?_
      cases hexec
      refine ⟨_, Kept.logSaved hinv hhash, ⟨fun _ => id, id, id⟩, ?_⟩
      refine wp_pure fun s' hlater _ => ⟨_, _, rfl, hsettled, ?_⟩
      intro bh' hbh' hmem
      rw [List.mem_singleton.mp hbh'] at hmem
      exact hgone (hafter.keep (ht₃.keep (hlater.2.keep hmem)))
  · rw [decide_eq_false hbh, Finset.erase_eq_of_notMem hbh]
    refine ⟨_, hinv, After.refl _, ?_⟩
    refine wp_pure fun s' hlater _ => ⟨m, l, rfl, hm, ?_⟩
    intro bh' hbh' hmem
    rw [List.mem_singleton.mp hbh'] at hmem
    exact hbh (hlater.2.keep hmem)

theorem wp_processBlob {content : Bytes} {entry : Blob}
    (hoccurs : Occurs r packs s.packs entry.toBlobHandle) (hm : Settled (m, 0, 0, l)) :
    (repackLogic r start packs keepBlobs).wp (system r)
      (processBlob r content entry) (BlobsPost w [entry.toBlobHandle]) (s, t) (m, w, 0, l) := by
  refine wp_read hm.unbroken (fun _ _ _ _ h => h.2) fun s₁ t₁ _ found hs₁ _ _ hfound => ?_
  cases found with
  | false =>
    have hgone := of_decide_eq_false hfound.1.symm
    refine wp_pure fun s' hlater _ => ⟨m, l, rfl, hm, ?_⟩
    intro bh hbh hmem
    rw [List.mem_singleton.mp hbh] at hmem
    exact hgone (hlater.2.keep hmem)
  | true =>
    refine wp_read hm.unbroken (fun _ _ _ _ h => h) fun s₂ t₂ _ fault hs₂ _ _ _ => ?_
    split
    · exact wp_blobFails
    unfold processKept
    split
    · exact wp_blobFails
    split
    · exact ⟨hm.unbroken, fun _ _ _ _ _ _ hexec => hexec.2.elim⟩
    · exact wp_blobFails
    · split
      · rename_i hhash
        exact wp_saveKept hhash ((hoccurs.later hs₁).later hs₂) hm
      · exact wp_blobFails

theorem wp_processBlobs {content : Bytes} {blobs : List Blob}
    (hoccurs : ∀ blob ∈ blobs, Occurs r packs s.packs blob.toBlobHandle)
    (hm : Settled (m, 0, 0, l)) : (repackLogic r start packs keepBlobs).wp (system r)
      (processBlobs r content blobs)
      (BlobsPost w (blobs.map Blob.toBlobHandle)) (s, t) (m, w, 0, l) := by
  induction blobs generalizing s t m l with
  | nil => exact wp_pure fun _ _ _ => ⟨m, l, rfl, hm, by simp⟩
  | cons entry rest ih =>
    refine wp_bind (wp_mono (wp_processBlob (hoccurs entry (by simp)) hm) ?_)
    rintro err ⟨s₁, t₁⟩ m₁ ⟨hs₁, _⟩ hentry
    cases err with
    | some err => exact wp_blobFails
    | none =>
      obtain ⟨m₁, l₁, rfl, hm₁, hgone⟩ := hentry rfl
      refine wp_mono (ih (fun blob hblob => ?_) hm₁) ?_
      · exact (hoccurs blob (List.mem_cons_of_mem _ hblob)).later hs₁
      intro err s' m' hlater hpost hnone
      obtain ⟨tokens, l', hm', hsettled, hall⟩ := hpost hnone
      refine ⟨tokens, l', hm', hsettled, ?_⟩
      intro bh hbh
      rcases List.mem_cons.mp hbh with rfl | hbh
      · exact fun hmem => hgone _ (by simp) (hlater.2.keep hmem)
      · exact hall bh hbh

theorem wp_worker {n : Multiset Token × Share} (hn : Settled n) :
    (repackLogic r start packs keepBlobs).wp (system r) (worker r)
      (Logic.loopPost Settled (Post State.Drained)) (s, t) n := by
  obtain ⟨m, w, k, l⟩ := n
  obtain rfl : w = 0 := hn.packs
  obtain rfl : k = 0 := hn.taken
  refine wp_onTop hn.unbroken fun s₁ t₁ frame _ _ hinv received t' hexec => ?_
  rcases hexec with ⟨job, rest, hqueue, rfl, rfl⟩ | ⟨hqueue, hclosed, rfl, rfl⟩
  · obtain ⟨hinv', hload⟩ := Kept.receiveProcess hinv hqueue
    refine ⟨_, hinv', ⟨fun _ => id, id, ?_⟩, ?_⟩
    · exact fun h => by simp [State.Drained, hqueue] at h
    have hjob : job.hash ∈ packs := by
      have hmem : job.hash ∈ packs.val := by
        rw [hinv'.work]
        simp
      exact hmem
    refine wp_read hn.unbroken (fun _ _ _ _ h => h) fun s₂ t₂ _ fault hs₂ _ _ _ => ?_
    split
    · exact wp_pure fun _ _ => nofun
    cases hlist : Pack.list r.key job.content job.content.length with
    | error err => exact wp_pure fun _ _ => nofun
    | ok listed =>
      obtain ⟨blobs, size⟩ := listed
      have hload₂ := hs₂.packs _ _ hload
      refine wp_bind (wp_mono (wp_processBlobs (fun blob hblob => ?_) hn) ?_)
      · exact ⟨job.hash, hjob, job.content, hload₂, blobs, size, hlist, blob, hblob, rfl⟩
      rintro err ⟨s₃, t₃⟩ m₃ ⟨hs₃, _⟩ hpost
      cases err with
      | some err => exact wp_pure fun _ _ => nofun
      | none =>
        obtain ⟨m₃, l₃, rfl, hm₃, hgone⟩ := hpost rfl
        refine wp_read hm₃.unbroken (fun _ _ _ _ h => h) fun s₄ t₄ _ fault hs₄ ht₄ _ _ => ?_
        split
        · exact wp_pure fun _ _ => nofun
        refine wp_read hm₃.unbroken (fun _ _ _ _ h => h) fun s₅ t₅ _ fault hs₅ ht₅ _ _ => ?_
        split
        · exact wp_pure fun _ _ => nofun
        refine wp_onTop hm₃.unbroken fun s₆ t₆ frame hs₆ ht₆ hinv _ t' hexec => ?_
        cases hexec
        have hlater := hs₃.trans (hs₄.trans (hs₅.trans hs₆))
        refine ⟨_, Kept.progress hinv (hlater.packs _ _ hload₂) ?_,
          ⟨fun _ => id, id, id⟩, wp_pure fun _ _ => hm₃⟩
        rintro bh ⟨blobs', size', hlist', blob, hblob, rfl⟩ hmem
        rw [hlist, Except.ok.injEq, Prod.mk.injEq] at hlist'
        obtain ⟨rfl, -⟩ := hlist'
        refine hgone _ (List.mem_map_of_mem hblob) ?_
        exact ht₄.keep (ht₅.keep (ht₆.keep hmem))
  · refine ⟨_, hinv, After.refl _, wp_pure fun s' hlater _ => ?_⟩
    exact ⟨hn, hlater.2.drained ⟨hclosed, hqueue⟩⟩

end Goroutines

end Repack

end Rapi.Repository
