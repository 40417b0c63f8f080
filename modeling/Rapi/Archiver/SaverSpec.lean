import Rapi.Archiver.Snapshot
import Rapi.Repository.Session

/-!
# What the savers promise

A blob future that has a reply names a blob that the repository knows.  One that
is closed means that its context is cancelled or that a worker has failed.  So a
file node may name blobs that were not saved only if the workers' context is
cancelled or a worker has failed, and after the check of the context in
`saveTree` only the failure is left.  A worker that fails owns a share which it
keeps until it returns its error.
-/

namespace Rapi.Archiver

open Foundation
open Restic (ID BlobType BlobHandle NodeType TreeNode)
open Repository (Repo RepoState SaveError Token Later Sound Setting heldBy)

/-! ## Trees that can be restored -/

section Valid

variable (cfg : Config) (s : RepoState)

/-- The repository knows the tree and everything that it refers to. -/
inductive ValidTree : ID → Prop
  | mk {tree : Restic.Tree} {id : ID} (hash : cfg.repo.hash (cfg.marshal tree) = id)
      (stands : cfg.treeOf id = some tree) (has : s.idx.has ⟨id, .tree⟩)
      (subtrees : ∀ node ∈ tree.nodes, ∀ sub, node.subtree = some sub → ValidTree sub)
      (content : ∀ node ∈ tree.nodes, ∀ blob ∈ node.content, s.idx.has ⟨blob, .data⟩) : ValidTree id

structure ValidNode (node : TreeNode) : Prop where
  subtree : ∀ id, node.subtree = some id → ValidTree cfg s id
  content : ∀ id ∈ node.content, s.idx.has ⟨id, .data⟩

def ValidFuture : FutureNode → Prop
  | .node node => ValidNode cfg s node
  | _ => True

end Valid

section Later

variable {cfg : Config} {s s' : RepoState}

theorem ValidTree.later {id : ID} (h : ValidTree cfg s id)
    (hlater : Later s s') : ValidTree cfg s' id := by
  induction h with
  | mk hash stands has _ content ih =>
    exact .mk hash stands (hlater.has _ has) ih fun node hnode blob hblob =>
      hlater.has _ (content node hnode blob hblob)

theorem ValidNode.later {node : TreeNode} (h : ValidNode cfg s node)
    (hlater : Later s s') : ValidNode cfg s' node :=
  ⟨fun id hid => (h.subtree id hid).later hlater, fun id hid => hlater.has _ (h.content id hid)⟩

theorem ValidFuture.later {fn : FutureNode} (h : ValidFuture cfg s fn)
    (hlater : Later s s') : ValidFuture cfg s' fn := by
  cases fn with
  | node node => exact ValidNode.later h hlater
  | file i | tree i => trivial

theorem validNode_fromFileInfo (fi : FileInfo) : ValidNode cfg s (nodeFromFileInfo fi) :=
  ⟨nofun, nofun⟩

end Later

/-! ## The invariant -/

/-- File nodes may name blobs that were not saved. -/
def State.Broken (t : State) : Prop := t.cancelled .workers ∨ t.failed

structure BlobSlot.Kept (cfg : Config) (s : RepoState) (t : State) (slot : BlobSlot) : Prop where
  sent : ∀ id known, slot.reply = .sent (id, known) →
    id = cfg.repo.hash slot.buf ∧ s.idx.has ⟨id, slot.type⟩
  closed : slot.reply = .closed → t.cancelled slot.ctx ∨ t.failed

def FileSlot.Kept (cfg : Config) (s : RepoState) (t : State) (slot : FileSlot) : Prop :=
  ∀ response, slot.reply = .sent response →
    ∀ node, response.node = some node → ValidNode cfg s node ∨ t.Broken

structure TreeSlot.Kept (cfg : Config) (s : RepoState) (t : State) (slot : TreeSlot) : Prop where
  node : slot.node.content = []
  nodes : ∀ fn ∈ slot.nodes, ValidFuture cfg s fn
  sent : ∀ node, slot.reply = .sent node → ValidNode cfg s node ∨ t.Broken

/-- The share counts the workers that have failed. -/
structure Kept (cfg : Config) (s : RepoState) (t : State) (n : Nat) : Prop where
  failed : t.failed → 0 < n
  contexts : t.cancelled .workers → t.cancelled .main ∨ t.failed
  blobs : ∀ slot ∈ t.blobs, slot.Kept cfg s t
  files : ∀ slot ∈ t.files, slot.Kept cfg s t
  trees : ∀ slot ∈ t.trees, slot.Kept cfg s t

def State.Job (t : State) (i : Nat) (ctx : Ctx) (type : BlobType) (buf : Bytes) : Prop :=
  ∃ slot, t.blobs[i]? = some slot ∧ slot.ctx = ctx ∧ slot.type = type ∧ slot.buf = buf

structure After (t t' : State) : Prop where
  cancelled : ∀ ctx, t.cancelled ctx → t'.cancelled ctx
  failed : t.failed → t'.failed
  jobs : ∀ i ctx type buf, t.Job i ctx type buf → t'.Job i ctx type buf

theorem After.refl (t : State) : After t t := ⟨fun _ => id, id, fun _ _ _ _ => id⟩

theorem After.trans {t t' t'' : State} (h : After t t') (h' : After t' t'') : After t t'' :=
  ⟨fun ctx => h'.cancelled ctx ∘ h.cancelled ctx, h'.failed ∘ h.failed,
    fun i ctx type buf => h'.jobs i ctx type buf ∘ h.jobs i ctx type buf⟩

theorem State.Broken.after {t t' : State} (h : t.Broken) (hafter : After t t') : t'.Broken :=
  h.imp (hafter.cancelled _) hafter.failed

section Kept

variable {cfg : Config} {s s' : RepoState} {t t' : State} {n n' : Nat}

theorem BlobSlot.Kept.mono {slot : BlobSlot} (h : slot.Kept cfg s t)
    (hlater : Later s s') (hafter : After t t') : slot.Kept cfg s' t' :=
  ⟨fun id known hsent => (h.sent id known hsent).imp_right (hlater.has _),
    fun hclosed => (h.closed hclosed).imp (hafter.cancelled _) hafter.failed⟩

theorem FileSlot.Kept.mono {slot : FileSlot} (h : slot.Kept cfg s t)
    (hlater : Later s s') (hafter : After t t') : slot.Kept cfg s' t' :=
  fun response hsent node hnode => (h response hsent node hnode).imp
    (fun h => h.later hlater) (fun h => h.after hafter)

theorem TreeSlot.Kept.mono {slot : TreeSlot} (h : slot.Kept cfg s t)
    (hlater : Later s s') (hafter : After t t') : slot.Kept cfg s' t' :=
  ⟨h.node, fun fn hfn => (h.nodes fn hfn).later hlater,
    fun node hsent => (h.sent node hsent).imp (fun h => h.later hlater) (fun h => h.after hafter)⟩

theorem Kept.later (h : Kept cfg s t n) (hlater : Later s s') : Kept cfg s' t n :=
  ⟨h.failed, h.contexts, fun slot hslot => (h.blobs slot hslot).mono hlater (.refl t),
    fun slot hslot => (h.files slot hslot).mono hlater (.refl t),
    fun slot hslot => (h.trees slot hslot).mono hlater (.refl t)⟩

theorem Kept.step (h : Kept cfg s t n) (hafter : After t t') (hfailed : t'.failed → 0 < n')
    (hcontexts : t'.cancelled .workers → t'.cancelled .main ∨ t'.failed)
    (hblobs : ∀ slot ∈ t'.blobs, slot ∈ t.blobs ∨ slot.Kept cfg s t')
    (hfiles : ∀ slot ∈ t'.files, slot ∈ t.files ∨ slot.Kept cfg s t')
    (htrees : ∀ slot ∈ t'.trees, slot ∈ t.trees ∨ slot.Kept cfg s t') : Kept cfg s t' n' :=
  ⟨hfailed, hcontexts, fun slot hslot => (hblobs slot hslot).elim
      (fun hold => (h.blobs slot hold).mono (.refl s) hafter) id,
    fun slot hslot => (hfiles slot hslot).elim
      (fun hold => (h.files slot hold).mono (.refl s) hafter) id,
    fun slot hslot => (htrees slot hslot).elim
      (fun hold => (h.trees slot hold).mono (.refl s) hafter) id⟩

theorem After.cancel (t : State) (ctx : Ctx) :
    After t { t with cancelled := Function.update t.cancelled ctx true } := by
  refine ⟨fun other hother => ?_, id, fun _ _ _ _ => id⟩
  by_cases h : other = ctx
  · simp [h]
  · simpa [h] using hother

theorem Kept.cancel {ctx : Ctx} (h : Kept cfg s t n)
    (hctx : ctx = .workers → t.cancelled .main ∨ t.failed) :
    Kept cfg s { t with cancelled := Function.update t.cancelled ctx true } n := by
  refine h.step (.cancel t ctx) h.failed (fun hworkers => ?_)
    (fun _ => Or.inl) (fun _ => Or.inl) (fun _ => Or.inl)
  have hbefore : t.cancelled .main ∨ t.failed := by
    cases ctx with
    | workers => exact hctx rfl
    | main => exact h.contexts hworkers
  exact hbefore.imp_left ((After.cancel t ctx).cancelled .main)

end Kept

/-! ## The logic -/

def setting (cfg : Config) (start : RepoState) : Setting where
  key := cfg.repo.key
  fresh _ := False
  passed bh data := cfg.repo.hash data = bh.id
  start := start

def upper (cfg : Config) (start : RepoState) :
    Upper (Repository.logic (setting cfg start)) State Nat where
  inv := Kept cfg
  later := After
  refl := After.refl
  trans := After.trans
  stable hlater h := h.later hlater

def archLogic (cfg : Config) (start : RepoState) :
    Logic (RepoState × State) (Multiset Token × Nat) :=
  (Repository.logic (setting cfg start)).extend (upper cfg start)

abbrev archWp (cfg : Config) (start : RepoState) {α : Type} (p : ArchM α) :=
  (archLogic cfg start).wp (system cfg) p

/-! ## Futures of blobs -/

section Blobs

variable {cfg : Config} {s : RepoState} {t : State} {n : Nat} {i : Nat}
  {ctx : Ctx} {type : BlobType} {buf : Bytes}

theorem After.append (t : State) (slot : BlobSlot) :
    After t { t with blobs := t.blobs ++ [slot] } := by
  refine ⟨fun _ => id, id, ?_⟩
  rintro i ctx type buf ⟨old, hold, hjob⟩
  refine ⟨old, ?_, hjob⟩
  rw [List.getElem?_append_left (List.getElem?_eq_some_iff.mp hold).1]
  exact hold

theorem After.setBlob {slot slot' : BlobSlot} {failed : Bool} (hslot : t.blobs[i]? = some slot)
    (hctx : slot'.ctx = slot.ctx) (htype : slot'.type = slot.type) (hbuf : slot'.buf = slot.buf)
    (hfailed : t.failed → failed) :
    After t { t with failed := failed, blobs := t.blobs.set i slot' } := by
  refine ⟨fun _ => id, hfailed, ?_⟩
  rintro j ctx type buf ⟨old, hold, hjob⟩
  by_cases hj : i = j
  · subst hj
    obtain rfl : old = slot := Option.some.inj (hold.symm.trans hslot)
    have hlength := (List.getElem?_eq_some_iff.mp hslot).1
    refine ⟨slot', List.getElem?_set_self hlength, ?_⟩
    rwa [hctx, htype, hbuf]
  · refine ⟨old, ?_, hjob⟩
    dsimp only
    rwa [List.getElem?_set_ne hj]

theorem Kept.sendBlob {taken : Bool} {reply : Reply (ID × Bool)}
    (h : Kept cfg s t n) (hsend : Sends (t.cancelled ctx) taken reply) :
    Kept cfg s { t with blobs := t.blobs ++ [⟨ctx, type, buf, taken, reply⟩] } n := by
  refine h.step (.append t _) h.failed h.contexts (fun slot hslot => ?_)
    (fun _ => Or.inl) (fun _ => Or.inl)
  rcases List.mem_append.mp hslot with hslot | hslot
  · exact Or.inl hslot
  · obtain rfl := List.mem_singleton.mp hslot
    right
    rcases hsend with ⟨-, rfl⟩ | ⟨hcancelled, -, rfl⟩
    · exact ⟨nofun, nofun⟩
    · exact ⟨nofun, fun _ => Or.inl hcancelled⟩

theorem Kept.setBlob {slot slot' : BlobSlot} {failed : Bool} {n' : Nat} (h : Kept cfg s t n)
    (hslot : t.blobs[i]? = some slot) (hctx : slot'.ctx = slot.ctx) (htype : slot'.type = slot.type)
    (hbuf : slot'.buf = slot.buf) (hfailed : t.failed → failed) (hshare : failed → 0 < n')
    (hkept : slot'.Kept cfg s { t with failed := failed, blobs := t.blobs.set i slot' }) :
    Kept cfg s { t with failed := failed, blobs := t.blobs.set i slot' } n' := by
  refine h.step (.setBlob hslot hctx htype hbuf hfailed) hshare ?_ ?_
    (fun _ => Or.inl) (fun _ => Or.inl)
  · exact fun hcancelled => (h.contexts hcancelled).imp_right hfailed
  · intro other hother
    rcases List.mem_or_eq_of_mem_set hother with hother | rfl
    · exact Or.inl hother
    · exact Or.inr hkept

theorem Waits.sent {α : Type} {cancelled : Bool} {reply : Option (Reply α)} {value : α}
    (h : Waits cancelled reply (some value)) : reply = some (.sent value) := by
  rcases h with ⟨-, hres⟩ | ⟨-, hres⟩ | ⟨_, hsent, ⟨⟩⟩
  · cases hres
  · cases hres
  · exact hsent

theorem Kept.waitBlob {res : Option (ID × Bool)} (h : Kept cfg s t n) (hjob : t.Job i ctx type buf)
    (hwait : Waits (t.cancelled ctx) (t.blobs[i]?.map BlobSlot.reply) res) :
    (∀ id known, res = some (id, known) → id = cfg.repo.hash buf ∧ s.idx.has ⟨id, type⟩) ∧
      (res = none → t.cancelled ctx ∨ t.failed) := by
  obtain ⟨slot, hslot, rfl, rfl, rfl⟩ := hjob
  have hkept := h.blobs slot (List.mem_of_getElem? hslot)
  rw [hslot, Option.map_some] at hwait
  rcases hwait with ⟨hcancelled, rfl⟩ | ⟨hclosed, rfl⟩ | ⟨value, hsent, rfl⟩
  · exact ⟨nofun, fun _ => Or.inl hcancelled⟩
  · exact ⟨nofun, fun _ => hkept.closed (Option.some.inj hclosed)⟩
  · refine ⟨?_, nofun⟩
    rintro id known ⟨⟩
    exact hkept.sent id known (Option.some.inj hsent)

end Blobs

/-! ## Programs that own nothing -/

/-- The program owns nothing in the end either. -/
def Quiet {α : Type} (Q : α → RepoState → State → Prop) (value : α)
    (x : RepoState × State) (own : Multiset Token × Nat) : Prop := own = 0 ∧ Q value x.1 x.2

def ValidNodes (cfg : Config) (s : RepoState) (t : State) (tree : Restic.Tree) : Prop :=
  (∀ node ∈ tree.nodes, ValidNode cfg s node) ∨ t.Broken

section Programs

variable {cfg : Config} {start s s' : RepoState} {t t' : State}

variable {tree : Restic.Tree} {β : Type}
  {Q : β → RepoState × State → Multiset Token × Nat → Prop} {ctx : Ctx}

theorem ValidNodes.later (h : ValidNodes cfg s t tree) (hlater : Later s s')
    (hafter : After t t') : ValidNodes cfg s' t' tree :=
  h.imp (fun h node hnode => (h node hnode).later hlater) (fun h => h.after hafter)

theorem ValidNodes.empty : ValidNodes cfg s t ⟨[]⟩ := Or.inl nofun

theorem ValidNodes.insert {tree' : Restic.Tree} {node : TreeNode}
    (h : ValidNodes cfg s t tree) (hnode : ValidNode cfg s node ∨ t.Broken)
    (hinsert : tree.insert node = some tree') : ValidNodes cfg s t tree' := by
  rcases h with h | h
  · refine hnode.imp_left fun hnode other hother => ?_
    rcases Restic.Tree.mem_insert hinsert hother with rfl | hother
    · exact hnode
    · exact h other hother
  · exact Or.inr h

theorem wp_return {α : Type} {value : α} {Q : α → RepoState → State → Prop}
    (h : ∀ s' t', Later s s' → After t t' → Q value s' t') :
    archWp cfg start (pure value) (Quiet Q) (s, t) 0 :=
  Logic.wp_pure fun x hlater => ⟨rfl, h x.1 x.2 hlater.1 hlater.2⟩

theorem wp_andThen {α : Type} {p : ArchM α} {f : α → ArchM β} {P : α → RepoState → State → Prop}
    {Q : β → RepoState → State → Prop} (h : archWp cfg start p (Quiet P) (s, t) 0)
    (hrest : ∀ value s' t', Later s s' → After t t' → P value s' t' →
      archWp cfg start (f value) (Quiet Q) (s', t') 0) :
    archWp cfg start (p >>= f) (Quiet Q) (s, t) 0 := by
  refine Logic.wp_bind (Logic.wp_mono h ?_)
  rintro value ⟨s', t'⟩ own hlater ⟨rfl, hvalue⟩
  exact hrest value s' t' hlater.1 hlater.2 hvalue

theorem wp_ask {op : Op} {f : op.Res → ArchM β}
    (hread : ∀ s t res t', exec cfg op s t res t' → t' = t)
    (h : ∀ s₁ t₁ n res, Later s s₁ → After t t₁ → Kept cfg s₁ t₁ n → exec cfg op s₁ t₁ res t₁ →
      archWp cfg start (f res) Q (s₁, t₁) 0) : archWp cfg start (perform op >>= f) Q (s, t) 0 :=
  Logic.wp_read (by simp) hread fun s₁ t₁ frame res hs ht hinv hexec =>
    h s₁ t₁ _ res hs ht hinv hexec

theorem wp_sendBlob {type : BlobType} {buf : Bytes} {f : Nat → ArchM β}
    (h : ∀ s₁ t₁ i, Later s s₁ → After t t₁ → t₁.Job i ctx type buf →
      archWp cfg start (f i) Q (s₁, t₁) 0) : archWp cfg start
      (perform (.sendBlob ctx type buf) >>= f) Q (s, t) 0 := by
  refine Logic.wp_onTop (by simp) fun s₁ t₁ frame hs ht hinv i t' hexec => ?_
  obtain ⟨rfl, taken, reply, hsend, rfl⟩ := hexec
  have hafter := After.append t₁ ⟨ctx, type, buf, taken, reply⟩
  refine ⟨0, Kept.sendBlob hinv hsend, hafter, ?_⟩
  exact h s₁ _ _ hs (ht.trans hafter) ⟨⟨ctx, type, buf, taken, reply⟩,
    List.getElem?_concat_length, rfl, rfl, rfl⟩

theorem wp_waitBlob {i : Nat} {type : BlobType} {buf : Bytes} {f : Option (ID × Bool) → ArchM β}
    (hjob : t.Job i ctx type buf) (h : ∀ s₁ t₁ res, Later s s₁ → After t t₁ →
      (∀ id known, res = some (id, known) → id = cfg.repo.hash buf ∧ s₁.idx.has ⟨id, type⟩) →
      (res = none → t₁.cancelled ctx ∨ t₁.failed) → archWp cfg start (f res) Q (s₁, t₁) 0) :
    archWp cfg start (perform (.waitBlob ctx i) >>= f) Q (s, t) 0 := by
  refine wp_ask (fun _ _ _ _ h => h.1) fun s₁ t₁ n res hs ht hinv hexec => ?_
  obtain ⟨hsent, hnone⟩ := hinv.waitBlob (ht.jobs _ _ _ _ hjob) hexec.2
  exact h s₁ t₁ res hs ht hsent hnone

/-! ## Trees -/

theorem Kept.failed_of_broken {n : Nat} (h : Kept cfg s t n)
    (hctx : t.cancelled ctx = false) (hbroken : t.Broken) : t.failed := by
  rcases hbroken with hcancelled | hfailed
  · cases ctx with
    | workers =>
      rw [hctx] at hcancelled
      cases hcancelled
    | main =>
      refine (h.contexts hcancelled).resolve_left ?_
      simp [hctx]
  · exact hfailed

theorem wp_saveTree (hnodes : ValidNodes cfg s t tree) : archWp cfg start (saveTree ctx tree)
      (Quiet fun result s t => ∀ id, result = .ok id → ValidTree cfg s id ∨ t.failed) (s, t) 0 := by
  refine wp_ask (fun _ _ _ _ h => h.1) fun s₁ t₁ _ buf hs₁ ht₁ _ hmarshal => ?_
  cases buf with
  | none => exact wp_return nofun
  | some buf =>
    obtain ⟨rfl, hstands⟩ := hmarshal.2 buf rfl
    refine wp_sendBlob fun s₂ t₂ i hs₂ ht₂ hjob => ?_
    refine wp_waitBlob hjob fun s₃ t₃ res hs₃ ht₃ hsent hnone => ?_
    refine wp_ask (fun _ _ _ _ h => h.1) fun s₄ t₄ _ err hs₄ ht₄ hinv herr => ?_
    cases err with
    | some err => exact wp_return nofun
    | none =>
      have hctx : t₄.cancelled ctx = false := by
        have hif := herr.2
        split at hif
        · rcases hif with hif | hif <;> cases hif
        · rename_i hctx
          exact Bool.eq_false_iff.mpr hctx
      refine wp_return fun s₅ t₅ hs₅ ht₅ id hid => ?_
      cases hid
      cases res with
      | none =>
        refine Or.inr (ht₅.failed ?_)
        refine hinv.failed_of_broken hctx (Or.inr ?_)
        refine ht₄.failed ((hnone rfl).resolve_left fun hcancelled => ?_)
        rw [ht₄.cancelled _ hcancelled] at hctx
        cases hctx
      | some value =>
        obtain ⟨id, known⟩ := value
        obtain ⟨rfl, hhas⟩ := hsent id known rfl
        have hs := hs₁.trans (hs₂.trans (hs₃.trans (hs₄.trans hs₅)))
        have ht := ht₁.trans (ht₂.trans (ht₃.trans ht₄))
        rcases hnodes with hnodes | hbroken
        · left
          have hvalid := fun node hnode => ValidNode.later (hnodes node hnode) hs
          refine .mk rfl hstands ((hs₄.trans hs₅).has _ hhas) ?_ ?_
          · exact fun node hnode => (hvalid node hnode).subtree
          · exact fun node hnode => (hvalid node hnode).content
        · right
          exact ht₅.failed (hinv.failed_of_broken hctx (hbroken.after ht))

end Programs

end Rapi.Archiver
