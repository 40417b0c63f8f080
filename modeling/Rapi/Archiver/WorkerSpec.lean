import Rapi.Archiver.SaverSpec

/-!
# What the workers leave behind

Every reply of a worker is what the invariant asks of it.  A worker that returns
without an error owns nothing but the blobs that it has announced, so that the
error is the only way to keep a share.
-/

namespace Rapi.Archiver

open Foundation
open Restic (ID BlobType BlobHandle NodeType TreeNode)
open Repository (Repo RepoState SaveError Token Later Sound heldBy)
open List Logic

variable {cfg : Config} {start s : RepoState} {t : State}

/-! ## Nodes -/

theorem wp_wait {ctx : Ctx} {fn : FutureNode} (hfn : ValidFuture cfg s fn) :
    archWp cfg start (fn.wait ctx) (Quiet fun result s t => ∀ node, result.1 = some node →
        ValidNode cfg s node ∨ t.Broken) (s, t) 0 := by
  cases fn with
  | node known =>
    refine wp_return ?_
    rintro s' t' hs' - node ⟨⟩
    exact Or.inl (ValidNode.later hfn hs')
  | file i =>
    refine wp_ask (fun _ _ _ _ h => h.1) fun s₁ t₁ _ res hs ht hinv hwait => ?_
    cases res with
    | none => exact wp_return nofun
    | some response =>
      refine wp_return fun s' t' hs' ht' node hnode => ?_
      obtain ⟨slot, hslot, hreply⟩ := Option.map_eq_some_iff.mp hwait.2.sent
      have hkept := hinv.files slot (mem_of_getElem? hslot)
      exact (hkept response hreply node hnode).imp (fun h => h.later hs') (fun h => h.after ht')
  | tree i =>
    refine wp_ask (fun _ _ _ _ h => h.1) fun s₁ t₁ _ res hs ht hinv hwait => ?_
    refine wp_return fun s' t' hs' ht' node hnode => ?_
    dsimp only at hnode
    subst hnode
    obtain ⟨slot, hslot, hreply⟩ := Option.map_eq_some_iff.mp hwait.2.sent
    have hkept := hinv.trees slot (mem_of_getElem? hslot)
    exact (hkept.sent node hreply).imp (fun h => h.later hs') (fun h => h.after ht')

theorem wp_insertNodes {nodes : List FutureNode} {tree : Restic.Tree}
    (hnodes : ∀ fn ∈ nodes, ValidFuture cfg s fn) (htree : ValidNodes cfg s t tree) :
    archWp cfg start (insertNodes nodes tree) (Quiet fun result s t => ∀ tree, result = .ok tree →
        ValidNodes cfg s t tree) (s, t) 0 := by
  induction nodes generalizing s t tree with
  | nil =>
    refine wp_return ?_
    rintro s' t' hs' ht' _ ⟨⟩
    exact htree.later hs' ht'
  | cons fn rest ih =>
    refine wp_andThen (wp_wait (hnodes fn (by simp))) ?_
    rintro ⟨node, err⟩ s₁ t₁ hs₁ ht₁ hnode
    have hrest : ∀ fn ∈ rest, ValidFuture cfg s₁ fn := fun fn hfn =>
      (hnodes fn (mem_cons_of_mem _ hfn)).later hs₁
    have htree₁ := htree.later hs₁ ht₁
    cases err with
    | some err =>
      refine wp_ask (fun _ _ _ _ h => h) fun s₂ t₂ _ err hs₂ ht₂ _ _ => ?_
      cases err with
      | none => exact ih (fun fn hfn => (hrest fn hfn).later hs₂) (htree₁.later hs₂ ht₂)
      | some err => exact wp_return nofun
    | none =>
      cases node with
      | none => exact ih hrest htree₁
      | some node =>
        dsimp only
        cases hinsert : tree.insert node with
        | none => exact wp_return nofun
        | some tree' => exact ih hrest (htree₁.insert (hnode node rfl) hinsert)

theorem wp_saveNodes {nodes : List FutureNode} (hnodes : ∀ fn ∈ nodes, ValidFuture cfg s fn) :
    archWp cfg start (saveNodes nodes) (Quiet fun result s t => ∀ id, result = .ok id →
        ValidTree cfg s id ∨ t.failed) (s, t) 0 := by
  refine wp_andThen (wp_insertNodes hnodes .empty) ?_
  rintro result s₁ t₁ - - hresult
  cases result with
  | error err => exact wp_return nofun
  | ok tree => exact wp_saveTree (hresult tree rfl)

/-! ## Files -/

theorem wp_saveChunks {chunks : List Bytes} {results : List Nat}
    (hresults : ∀ i ∈ results, ∃ buf, t.Job i .workers .data buf) :
    archWp cfg start (saveChunks chunks results)
      (Quiet fun result _ t => ∀ results, result = .ok results →
        ∀ i ∈ results, ∃ buf, t.Job i .workers .data buf) (s, t) 0 := by
  induction chunks generalizing s t results with
  | nil =>
    refine wp_return ?_
    rintro s' t' - ht' _ ⟨⟩ i hi
    obtain ⟨buf, hjob⟩ := hresults i hi
    exact ⟨buf, ht'.jobs _ _ _ _ hjob⟩
  | cons chunk rest ih =>
    refine wp_ask (fun _ _ _ _ h => h.1) fun s₁ t₁ _ err hs₁ ht₁ _ _ => ?_
    cases err with
    | some err => exact wp_return nofun
    | none =>
      refine wp_sendBlob fun s₂ t₂ i hs₂ ht₂ hjob => ?_
      refine wp_ask (fun _ _ _ _ h => h.1) fun s₃ t₃ _ err hs₃ ht₃ _ _ => ?_
      cases err with
      | some err => exact wp_return nofun
      | none =>
        refine ih fun j hj => ?_
        rcases mem_append.mp hj with hj | hj
        · obtain ⟨buf, hold⟩ := hresults j hj
          exact ⟨buf, (ht₁.trans (ht₂.trans ht₃)).jobs _ _ _ _ hold⟩
        · rw [mem_singleton.mp hj]
          exact ⟨chunk, ht₃.jobs _ _ _ _ hjob⟩

theorem wp_waitBlobs {results : List Nat}
    (hresults : ∀ i ∈ results, ∃ buf, t.Job i .workers .data buf) :
    archWp cfg start (waitBlobs results) (Quiet fun content s t =>
        (∀ id ∈ content, s.idx.has ⟨id, .data⟩) ∨ t.Broken) (s, t) 0 := by
  induction results generalizing s t with
  | nil => exact wp_return fun _ _ _ _ => Or.inl nofun
  | cons i rest ih =>
    obtain ⟨buf, hjob⟩ := hresults i (by simp)
    refine wp_waitBlob hjob fun s₁ t₁ res hs₁ ht₁ hsent hnone => ?_
    refine wp_andThen (ih fun j hj => ?_) ?_
    · obtain ⟨buf, hold⟩ := hresults j (mem_cons_of_mem _ hj)
      exact ⟨buf, ht₁.jobs _ _ _ _ hold⟩
    rintro content s₂ t₂ hs₂ ht₂ hcontent
    refine wp_return fun s₃ t₃ hs₃ ht₃ => ?_
    cases res with
    | none => exact Or.inr ((State.Broken.after (hnone rfl) ht₂).after ht₃)
    | some value =>
      obtain ⟨-, hhas⟩ := hsent value.1 value.2 rfl
      refine hcontent.imp (fun hcontent id hid => ?_) (fun h => h.after ht₃)
      rcases mem_cons.mp hid with rfl | hid
      · exact (hs₂.trans hs₃).has _ hhas
      · exact hs₃.has _ (hcontent id hid)

theorem wp_saveFile {fi : FileInfo} : archWp cfg start (saveFile fi)
      (Quiet fun response s t => ∀ node, response.node = some node →
        ValidNode cfg s node ∨ t.Broken) (s, t) 0 := by
  refine wp_ask (fun _ _ _ _ h => h) fun s₁ t₁ _ failed _ _ _ _ => ?_
  split
  · exact wp_return nofun
  dsimp only
  split
  · exact wp_return nofun
  refine wp_ask (fun _ _ _ _ h => h) fun s₂ t₂ _ chunks _ _ _ _ => ?_
  obtain ⟨chunks, broken⟩ := chunks
  refine wp_andThen (wp_saveChunks nofun) ?_
  rintro result s₃ t₃ - - hresults
  cases result with
  | error err => exact wp_return nofun
  | ok results =>
    dsimp only
    split
    · exact wp_return nofun
    refine wp_ask (fun _ _ _ _ h => h) fun s₄ t₄ _ failed _ ht₄ _ _ => ?_
    split
    · exact wp_return nofun
    refine wp_andThen (wp_waitBlobs fun i hi => ?_) ?_
    · obtain ⟨buf, hjob⟩ := hresults results rfl i hi
      exact ⟨buf, ht₄.jobs _ _ _ _ hjob⟩
    rintro content s₅ t₅ - - hcontent
    refine wp_return ?_
    rintro s₆ t₆ hs₆ ht₆ node ⟨⟩
    exact hcontent.imp (fun hcontent => ⟨nofun, fun id hid => hs₆.has _ (hcontent id hid)⟩)
      (fun h => h.after ht₆)

/-! ## The loops -/

/-- A worker between two jobs, or one that has ended without an error. -/
structure Idle (own : Multiset Token × Nat) : Prop where
  unbroken : .broken ∉ own.1
  held : heldBy own.1 = 0
  indexed : ∀ idx, .index idx ∉ own.1
  share : own.2 = 0

theorem Idle.zero : Idle 0 := ⟨by simp, rfl, by simp, rfl⟩

variable {own : Multiset Token × Nat}

theorem Idle.add {own' : Multiset Token × Nat} (h : Idle own) (h' : Idle own') :
    Idle (own + own') := by
  constructor
  · simpa using ⟨h.unbroken, h'.unbroken⟩
  · simp [h.held, h'.held]
  · intro idx
    simpa using ⟨h.indexed idx, h'.indexed idx⟩
  · simp [h.share, h'.share]

def Post (cfg : Config) (outcome : Except Error (Option ID)) (x : RepoState × State)
    (own : Multiset Token × Nat) : Prop :=
  ∀ root, outcome = .ok root → Idle own ∧
    ∀ id, root = some id → ValidTree cfg x.1 id ∨ x.2.failed

theorem Kept.setFile {n i : Nat} {slot : FileSlot} (h : Kept cfg s t n)
    (hkept : slot.Kept cfg s t) : Kept cfg s { t with files := t.files.set i slot } n := by
  refine h.step ⟨fun _ => id, id, fun _ _ _ _ => id⟩ h.failed h.contexts
    (fun _ => Or.inl) (fun other hother => ?_) (fun _ => Or.inl)
  rcases mem_or_eq_of_mem_set hother with hother | rfl
  · exact Or.inl hother
  · exact Or.inr hkept

theorem Kept.setTree {n n' i : Nat} {slot : TreeSlot} {failed : Bool} (h : Kept cfg s t n)
    (hfailed : t.failed → failed) (hshare : failed → 0 < n') (hkept : slot.Kept cfg s t) :
    Kept cfg s { t with failed := failed, trees := t.trees.set i slot } n' := by
  have hafter : After t { t with failed := failed, trees := t.trees.set i slot } :=
    ⟨fun _ => id, hfailed, fun _ _ _ _ => id⟩
  refine h.step hafter hshare ?_ (fun _ => Or.inl) (fun _ => Or.inl) ?_
  · exact fun hcancelled => (h.contexts hcancelled).imp_right hfailed
  · intro other hother
    rcases mem_or_eq_of_mem_set hother with hother | rfl
    · exact Or.inl hother
    · exact Or.inr (hkept.mono (.refl s) hafter)

private theorem wp_ends {idle : Multiset Token × Nat → Prop} (hown : Idle own) :
    archWp cfg start (pure (some (.ok none))) (Logic.loopPost idle (Post cfg)) (s, t) own :=
  wp_pure fun _ _ root hroot => by
    cases hroot
    exact ⟨hown, nofun⟩

private theorem wp_fails {idle : Multiset Token × Nat → Prop} {err : Error} :
    archWp cfg start (pure (some (.error err))) (Logic.loopPost idle (Post cfg)) (s, t) own :=
  wp_pure fun _ _ => nofun

theorem wp_fileWorker : archWp cfg start fileWorker
      (Logic.loopPost (· = 0) (Post cfg)) (s, t) 0 := by
  refine wp_onTop (by simp) fun s₁ t₁ frame _ _ hinv job t' hexec => ?_
  rcases hexec with ⟨-, rfl, rfl⟩ | ⟨i, slot, hslot, -, rfl, rfl⟩
  · exact ⟨0, hinv, After.refl _, wp_ends .zero⟩
  have hkept := hinv.files slot (mem_of_getElem? hslot)
  refine ⟨0, Kept.setFile hinv hkept, ⟨fun _ => id, id, fun _ _ _ _ => id⟩, ?_⟩
  refine wp_bind (wp_mono wp_saveFile ?_)
  rintro response ⟨s₂, t₂⟩ _ - ⟨rfl, hresponse⟩
  refine wp_onTop (by simp) fun s₃ t₃ frame hs₃ ht₃ hinv _ t' hexec => ?_
  obtain ⟨slot, -, rfl⟩ := hexec
  refine ⟨0, Kept.setFile hinv ?_, ⟨fun _ => id, id, fun _ _ _ _ => id⟩, wp_pure fun _ _ => rfl⟩
  rintro _ ⟨⟩ node hnode
  exact (hresponse node hnode).imp (fun h => h.later hs₃) (fun h => h.after ht₃)

theorem wp_treeWorker : archWp cfg start treeWorker
      (Logic.loopPost (· = 0) (Post cfg)) (s, t) 0 := by
  refine wp_onTop (by simp) fun s₁ t₁ frame _ _ hinv job t' hexec => ?_
  rcases hexec with ⟨-, rfl, rfl⟩ | ⟨i, slot, hslot, -, rfl, rfl⟩
  · exact ⟨0, hinv, After.refl _, wp_ends .zero⟩
  have hkept := hinv.trees slot (mem_of_getElem? hslot)
  refine ⟨0, Kept.setTree hinv id hinv.failed ⟨hkept.node, hkept.nodes,
    hkept.sent⟩, ⟨fun _ => id, id, fun _ _ _ _ => id⟩, ?_⟩
  refine wp_bind (wp_mono (wp_saveNodes hkept.nodes) ?_)
  rintro result ⟨s₂, t₂⟩ _ - ⟨rfl, hresult⟩
  cases result with
  | error err =>
    refine wp_onTop (by simp) fun s₃ t₃ frame _ _ hinv _ t' hexec => ?_
    obtain ⟨other, hother, rfl⟩ := hexec
    have hkept := hinv.trees other (mem_of_getElem? hother)
    refine ⟨1, Kept.setTree hinv (fun _ => rfl) (fun _ => ?_) ⟨hkept.node, hkept.nodes, nofun⟩,
      ⟨fun _ => id, fun _ => rfl, fun _ _ _ _ => id⟩, wp_fails⟩
    omega
  | ok id =>
    refine wp_onTop (by simp) fun s₃ t₃ frame hs₃ ht₃ hinv _ t' hexec => ?_
    obtain ⟨other, hother, rfl⟩ := hexec
    have hother := hinv.trees other (mem_of_getElem? hother)
    refine ⟨0, Kept.setTree hinv (fun h => h) hinv.failed ⟨hother.node, hother.nodes, ?_⟩,
      ⟨fun _ h => h, fun h => h, fun _ _ _ _ h => h⟩, wp_pure fun _ _ => rfl⟩
    rintro _ ⟨⟩
    rcases hresult id rfl with hvalid | hfailed
    · refine Or.inl ⟨?_, ?_⟩
      · rintro _ ⟨⟩
        exact hvalid.later hs₃
      · rw [show ({ slot.node with subtree := some id } : TreeNode).content = [] from hkept.node]
        exact nofun
    · exact Or.inr (Or.inr (ht₃.failed hfailed))

/-- The blob is known, and what the call leaves if it succeeds is idle. -/
private theorem wp_saveBlobJob {type : BlobType} {buf : Bytes}
    {m : Multiset Token} (hm : Idle (m, 0)) :
    (Repository.logic (setting cfg start)).wp Repository.system
      (cfg.repo.saveBlob type buf .null false) (fun result s' m' => .broken ∉ m' ∧
        result.1 = cfg.repo.hash buf ∧
        s'.idx.has ⟨cfg.repo.hash buf, type⟩ ∧
        (result.2.2 = none → Idle (m', 0))) s m := by
  have hsave : (Repository.logic (setting cfg start)).wp Repository.system
      (cfg.repo.saveBlob type buf .null false)
      (Repository.BlobPost ⟨cfg.repo.hash buf, type⟩ false) s 0 :=
    Repository.wp_saveBlob rfl rfl rfl nofun
  have hframed := wp_frame hsave hm.unbroken
  rw [zero_add] at hframed
  refine wp_mono hframed ?_
  rintro result s' m' - ⟨used, rfl, hpost⟩
  refine ⟨?_, hpost.id, hpost.has, fun hnone => ?_⟩
  · simpa using ⟨hpost.unbroken, hm.unbroken⟩
  · have hused : Idle (used, 0) := by
      rw [hpost.accepted hnone]
      exact ⟨by simp, by simp, by simp, rfl⟩
    exact hused.add hm

theorem wp_blobWorker (hown : Idle own) : archWp cfg start (blobWorker cfg)
      (Logic.loopPost Idle (Post cfg)) (s, t) own := by
  obtain ⟨m, n⟩ := own
  obtain rfl : n = 0 := hown.share
  refine wp_onTop hown.unbroken fun s₁ t₁ frame _ _ hinv job t' hexec => ?_
  rcases hexec with ⟨-, rfl, rfl⟩ | ⟨i, slot, hslot, -, rfl, rfl⟩
  · exact ⟨0, hinv, After.refl _, wp_ends hown⟩
  have hafter : After t₁ { t₁ with blobs := t₁.blobs.set i { slot with taken := true } } :=
    .setBlob hslot rfl rfl rfl id
  have hkept := hinv.blobs slot (mem_of_getElem? hslot)
  have hjob := hafter.jobs i _ _ _ ⟨slot, hslot, rfl, rfl, rfl⟩
  refine ⟨0, Kept.setBlob hinv hslot rfl rfl rfl id hinv.failed
    ⟨(hkept.mono (.refl _) hafter).sent, (hkept.mono (.refl _) hafter).closed⟩, hafter, ?_⟩
  refine wp_bind (wp_mono (wp_lift (wp_saveBlobJob hown)) ?_)
  rintro ⟨id, known, err⟩ ⟨s₂, t₂⟩ ⟨m₂, _⟩ ⟨_, ht₂⟩ ⟨⟨hunbroken, hid, hhas, hidle⟩, rfl⟩
  dsimp only at hid
  subst hid
  cases err with
  | some err =>
    refine wp_onTop hunbroken fun s₃ t₃ frame _ _ hinv _ t' hexec => ?_
    obtain ⟨other, hother, rfl⟩ := hexec
    refine ⟨1, Kept.setBlob hinv hother rfl rfl rfl (fun _ => rfl)
      (fun _ => by omega) ⟨nofun, fun _ => Or.inr rfl⟩,
      .setBlob hother rfl rfl rfl fun _ => rfl, wp_fails⟩
  | none =>
    refine wp_onTop hunbroken fun s₃ t₃ frame hs₃ ht₃ hinv _ t' hexec => ?_
    obtain ⟨other, hother, rfl⟩ := hexec
    obtain ⟨_, hsame, -, htype, hbuf⟩ := (ht₂.trans ht₃).jobs _ _ _ _ hjob
    obtain rfl := Option.some.inj (hother.symm.trans hsame)
    refine ⟨0, Kept.setBlob hinv hother rfl rfl rfl id hinv.failed
      ⟨?_, nofun⟩, .setBlob hother rfl rfl rfl id, wp_pure fun _ _ => hidle rfl⟩
    rintro _ _ ⟨⟩
    rw [htype, hbuf]
    exact ⟨rfl, hs₃.has _ hhas⟩

end Rapi.Archiver
