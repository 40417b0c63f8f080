import Rapi.Archiver.WalkSpec
import Rapi.Repository.SavedIndexes

/-!
# Snapshots do not dangle

When `Snapshot` writes a snapshot file, all goroutines have ended without an
error.  So no worker has failed and the root tree is valid: the repository knows
everything that it refers to.  The flush before leaves nothing pending, so that
what the repository knows is in an index file and in a pack.
-/

namespace Rapi.Archiver

open Foundation
open Restic (ID BlobType BlobHandle NodeType TreeNode PackedBlob)
open Crypto (sampleKey sampleNonce)
open Repository (Repo RepoState Token Later Sound Setting heldBy
  MasterIndex Packer prefixHash prefixRepo sampleStart)

section Goroutines

variable {cfg : Config} {start s s' : RepoState} {atree : Tree} {root : ID}

theorem kept_start : Kept cfg start ⟨fun _ => false, false, [], [], []⟩ 0 := by constructor <;> simp

theorem pool_safe (hopened : start.Opened) : (archLogic cfg start).PoolSafe (system cfg) (fun
        | .walk => fun _ => False
        | .blobWorker _ => Idle
        | .fileWorker _ => (· = 0)
        | .treeWorker _ => (· = 0)) (fun _ => Post cfg) (pool cfg start atree) := by
  refine ⟨fun _ => 0, ?_, fun role => ?_⟩
  · rw [Finset.sum_const_zero]
    exact ⟨Sound.opened (c := setting cfg start) hopened fun _ => False.elim, kept_start⟩
  · cases role with
    | walk => exact .once wp_walk
    | blobWorker i => exact .loop_forever (fun own hown => wp_blobWorker hown) .zero
    | fileWorker i =>
      refine .loop_forever (fun own hown => ?_) rfl
      rw [hown]
      exact wp_fileWorker
    | treeWorker i =>
      refine .loop_forever (fun own hown => ?_) rfl
      rw [hown]
      exact wp_treeWorker

theorem validTree_of_finished (hopened : start.Opened)
    {final : Pool (RepoState × State) (Repository.Op ⊕ Op)
      (Sum.elim Repository.Op.Res Op.Res) (Except Error (Option ID)) (Role cfg)}
    {results : Role cfg → Except Error (Option ID)}
    (hsteps : Relation.ReflTransGen (Pool.Step (system cfg))
      (pool cfg start atree) final) (hfinished : final.Finished results)
    (hok : ∀ role, ∃ id, results role = .ok id) (hwalk : results .walk = .ok (some root)) :
    ∃ own, Sound (setting cfg start) final.state.1 own.1 ∧ Idle own ∧
      Later start final.state.1 ∧ ValidTree cfg final.state.1 root := by
  obtain ⟨hsafe, hlater⟩ := (pool_safe hopened).steps
    (Logic.extend_env nofun fun _ _ _ _ hkept hcancel => by
      obtain ⟨ctx, hctx, rfl⟩ := hcancel
      exact ⟨Kept.cancel hkept hctx, .cancel _ ctx⟩) hsteps
  obtain ⟨own, hinv, hpost⟩ := hsafe.finished hfinished
  have hidle : Idle (∑ role, own role) :=
    Finset.sum_induction own Idle (fun _ _ => Idle.add) .zero fun role _ => by
      obtain ⟨id, hid⟩ := hok role
      exact (hpost role id hid).1
  refine ⟨_, hinv.1, hidle, hlater.1, ?_⟩
  refine ((hpost .walk _ hwalk).2 root rfl).resolve_right fun hfailed => ?_
  have hshare := hinv.2.failed hfailed
  rw [hidle.share] at hshare
  exact absurd hshare (lt_irrefl 0)

/-! ## What a valid tree refers to -/

theorem ValidTree.has_of_refers {bh : BlobHandle}
    (h : ValidTree cfg s root) (hrefers : Refers cfg.treeOf root bh) :
    s.idx.has bh ∧ (bh.type = .tree → ValidTree cfg s bh.id) := by
  induction hrefers with
  | root =>
    refine ⟨?_, fun _ => h⟩
    obtain ⟨-, -, hhas, -, -⟩ := h
    exact hhas
  | @subtree id sub tree _ hstands hsub ih =>
    obtain ⟨-, hstands', -, hsubtrees, -⟩ := ih.2 rfl
    obtain rfl := Option.some.inj (hstands.symm.trans hstands')
    obtain ⟨node, hnode, hsub⟩ := List.mem_filterMap.mp hsub
    have hvalid : ValidTree cfg s sub := by
      refine hsubtrees node hnode sub ?_
      split at hsub
      · exact hsub
      · cases hsub
    refine ⟨?_, fun _ => hvalid⟩
    obtain ⟨-, -, hhas, -, -⟩ := hvalid
    exact hhas
  | @content id blob tree node _ hstands hnode _ hblob ih =>
    obtain ⟨-, hstands', -, -, hcontent⟩ := ih.2 rfl
    obtain rfl := Option.some.inj (hstands.symm.trans hstands')
    exact ⟨hcontent node hnode blob hblob, nofun⟩

/-- The flush leaves nothing pending, so that every blob that was known before
has an entry. -/
theorem entry_of_flushed {m : Multiset Token} (hopened : start.Opened)
    (h : Sound (setting cfg start) s m) (hheld : heldBy m = 0)
    (hflush : Runs Repository.system cfg.repo.flush s none s') {bh : BlobHandle}
    (hhas : s.idx.has bh) : ∃ pb ∈ s'.idx.content, pb.toBlobHandle = bh := by
  obtain ⟨hsound, hlater, hnothing⟩ := h.flushedIndex rfl hflush
  rcases MasterIndex.has_iff.mp (hlater.has _ hhas) with hpending | hentry
  · rcases hsound.pending bh hpending with hpending | hpending
    · rw [hnothing, hheld] at hpending
      exact absurd hpending (Multiset.notMem_zero bh)
    · rw [show (setting cfg start).start = start from rfl, hopened.pending] at hpending
      exact absurd hpending (Finset.notMem_empty bh)
  · exact hentry

theorem snapshot_not_dangling (hopened : start.Opened)
    (hauto : cfg.repo.noAutoIndexUpdate = false)
    (hhash : ∀ data, cfg.repo.hash data ≠ .null)
    (hstart : ∀ pb ∈ start.idx.content, pb.id ≠ .null ∧
      ∃ content, start.packs.load pb.packID = some content)
    (h : WritesSnapshot cfg start atree root s) :
    ∀ bh, Refers cfg.treeOf root bh → bh.id ≠ .null ∧
      ∃ pb, pb.toBlobHandle = bh ∧
        (pb ∈ start.idx.content ∨ s.Listed pb) ∧
        ∃ content, s.packs.load pb.packID = some content := by
  intro bh hrefers
  obtain ⟨final, results, hsteps, hfinished, hok, hwalk, hflush⟩ := h
  obtain ⟨own, hsound, hidle, hlater, hvalid⟩ :=
    validTree_of_finished hopened hsteps hfinished hok hwalk
  obtain ⟨pb, hpb, rfl⟩ := entry_of_flushed hopened hsound hidle.held hflush
    (hvalid.has_of_refers hrefers).1
  obtain ⟨hsound, hlater', -⟩ := hsound.flushedIndex rfl hflush
  refine ⟨?_, pb, rfl, ?_, ?_⟩
  · rcases (hsound.filed hidle.unbroken).entries pb hpb with hold | hwritten
    · exact (hstart pb hold).1
    · obtain ⟨_, _, _, -, -, -, -, nonce, data, hpassed, -⟩ := hwritten.stored
      intro hnull
      exact hhash data (hpassed.trans hnull)
  · have hfinal := (MasterIndex.mem_content_iff.mp hpb).resolve_right
      (Repository.flush_closed hauto hflush pb)
    rcases hsound.covered pb hfinal with hcovered | ⟨idx, hidx, -⟩
    · exact hcovered
    · exact absurd hidx (hidle.indexed idx)
  · rcases hsound.stored pb hpb with hold | hstored
    · obtain ⟨content, hload⟩ := (hstart pb hold).2
      exact ⟨content, (hlater.trans hlater').packs _ _ hload⟩
    · exact hstored

end Goroutines

/-! ## A snapshot of a directory with a file -/

def sampleChunks : List Bytes := [[1], [2, 3]]

def dirInfo : FileInfo := ⟨ascii "d", .dir, 0, 1, 2, 3, 4, 5⟩

def fileInfo : FileInfo := ⟨ascii "f", .file, 3, 1, 6, 3, 4, 5⟩

def sampleItem : Item :=
  .found dirInfo true (.error .openFile) true
    (.cons (ascii "f") (.found fileInfo true (.ok fileInfo) false .nil) .nil)

def sampleTarget : Tree := .mk (.cons (ascii "d") (.mk .nil (ascii "d") [] []) .nil) [] [] []

/-- The names with the IDs of the blobs and of the subtree. -/
def sampleMarshal (tree : Restic.Tree) : Bytes :=
  tree.nodes.flatMap fun node =>
    node.name ++ (node.content ++ node.subtree.toList).flatMap (·.bytes)

def savedFile : TreeNode :=
  { Restic.sampleFile (ascii "f") 3 (sampleChunks.map prefixHash) with
    inode := 6, deviceID := 3, modTime := 4, changeTime := 5 }

def savedDir : TreeNode :=
  { nodeFromFileInfo dirInfo with subtree := some (prefixHash (sampleMarshal ⟨[savedFile]⟩)) }

def sampleConfig : Config where
  repo := prefixRepo
  marshal := sampleMarshal
  treeOf id := [⟨[savedFile]⟩, ⟨[savedDir]⟩].find? fun tree => prefixHash (sampleMarshal tree) = id
  ignoreCtime := false
  ignoreInode := false
  saveBlobConcurrency := 2
  fileReadConcurrency := 1
  saveTreeConcurrency := 1

def sampleRoot : ID := prefixHash (sampleMarshal ⟨[savedDir]⟩)

/-- The reply to a future, as soon as it is there. -/
def replied {α : Type} (cancelled : Bool) (reply : Option (Reply α)) (t : State) :
    Option { found : Option α × State // found.2 = t ∧ Waits cancelled reply found.1 } :=
  match reply with
  | some (.sent value) => some ⟨(some value, t), rfl, .inr (.inr ⟨value, rfl, rfl⟩)⟩
  | _ => none

/-- The first job that is not taken, unless the workers are to end. -/
def takeJob {α β : Type} (t : State) (slots : List α) (taken : α → Bool)
    (job : Nat → α → β × State) : Option { found : Option β × State //
      t.cancelled .workers ∧ found.1 = none ∧ found.2 = t ∨
        ∃ i slot, slots[i]? = some slot ∧ taken slot = false ∧
          found.1 = some (job i slot).1 ∧ found.2 = (job i slot).2 } :=
  if hcancelled : t.cancelled .workers then some ⟨(none, t), .inl ⟨hcancelled, rfl, rfl⟩⟩
  else
    let i := slots.findIdx (!taken ·)
    match hslot : slots[i]? with
    | some slot =>
      if hfree : taken slot = false then
        some ⟨(some (job i slot).1, (job i slot).2), .inr ⟨i, slot, hslot, hfree, rfl, rfl⟩⟩
      else none
    | none => none

def playback : Playback (system sampleConfig) :=
  { (Repository.playback sampleNonce fun _ _ => none).extend fun
    | .ctxErr ctx, _, t =>
      if hgoes : t.cancelled ctx = false then some ⟨(none, t), rfl, by simp [hgoes]⟩ else none
    | .sendBlob ctx type buf, _, t =>
      some ⟨(t.blobs.length, { t with blobs := t.blobs ++ [⟨ctx, type, buf, false, .pending⟩] }),
        rfl, false, .pending, .inl ⟨rfl, rfl⟩, rfl⟩
    | .waitBlob ctx i, _, t => replied (t.cancelled ctx) (t.blobs[i]?.map BlobSlot.reply) t
    | .receiveBlob, _, t =>
      takeJob t t.blobs BlobSlot.taken fun i slot => ((i, slot.type, slot.buf),
        { t with blobs := t.blobs.set i { slot with taken := true } })
    | .replyBlob i id known, _, t =>
      (t.blobs[i]?).attach.map fun ⟨slot, hslot⟩ => ⟨((),
        { t with blobs := t.blobs.set i { slot with reply := .sent (id, known) } }),
        slot, hslot, rfl⟩
    | .sendFile fi, _, t =>
      some ⟨(t.files.length, { t with files := t.files ++ [⟨fi, false, .pending⟩] }),
        rfl, false, .pending, .inl ⟨rfl, rfl⟩, rfl⟩
    | .waitFile ctx i, _, t => replied (t.cancelled ctx) (t.files[i]?.map FileSlot.reply) t
    | .receiveFile, _, t =>
      takeJob t t.files FileSlot.taken fun i slot => ((i, slot.fi),
        { t with files := t.files.set i { slot with taken := true } })
    | .replyFile i response, _, t =>
      (t.files[i]?).attach.map fun ⟨slot, hslot⟩ => ⟨((),
        { t with files := t.files.set i { slot with reply := .sent response } }), slot, hslot, rfl⟩
    | .sendTree node nodes, _, t =>
      some ⟨(t.trees.length, { t with trees := t.trees ++ [⟨node, nodes, false, .pending⟩] }),
        rfl, false, .pending, .inl ⟨rfl, rfl⟩, rfl⟩
    | .waitTree ctx i, _, t => replied (t.cancelled ctx) (t.trees[i]?.map TreeSlot.reply) t
    | .receiveTree, _, t =>
      takeJob t t.trees TreeSlot.taken fun i slot => ((i, slot.node, slot.nodes),
        { t with trees := t.trees.set i { slot with taken := true } })
    | .replyTree i node, _, t =>
      (t.trees[i]?).attach.map fun ⟨slot, hslot⟩ => ⟨((),
        { t with trees := t.trees.set i { slot with reply := .sent node } }), slot, hslot, rfl⟩
    | .fails, _, t => some ⟨(false, t), rfl⟩
    | .marshal tree, _, t =>
      let buf := sampleMarshal tree
      if hstands : sampleConfig.treeOf (prefixHash buf) = some tree then
        some ⟨(some buf, t), rfl, by rintro _ ⟨⟩; exact ⟨rfl, hstands⟩⟩
      else none
    | .loadParentTree, _, t => some ⟨(none, t), rfl⟩
    | .lookAt _, _, t => some ⟨(sampleItem, t), rfl⟩
    | .chunks, _, t => some ⟨((sampleChunks, false), t), rfl⟩
    | .iterate futures, _, t => some ⟨(futures, t), rfl, .refl _⟩
    | .kill, _, t =>
      some ⟨((), { t with cancelled := Function.update t.cancelled .main true }), rfl⟩
    | _, _, _ => none with
    interfere := fun (s, t) =>
      if hmain : t.cancelled .main then
        some ⟨(s, { t with cancelled := Function.update t.cancelled .workers true }),
          .inr ⟨rfl, .workers, fun _ => .inl hmain, rfl⟩⟩
      else none }

deriving instance DecidableEq for Error

instance decEqExcept {ε α : Type} [DecidableEq ε] [DecidableEq α] : DecidableEq (Except ε α)
  | .ok a, .ok b => decidable_of_iff (a = b) ⟨congrArg _, Except.ok.inj⟩
  | .error a, .error b => decidable_of_iff (a = b) ⟨congrArg _, Except.error.inj⟩
  | .ok _, .error _ | .error _, .ok _ => isFalse (by rintro ⟨⟩)

/-- The directory waits for the file, and the root for the directory; then the workers
are told to end. -/
def sampleTurns : List (Turn (Role sampleConfig)) :=
  [.thread .walk, .thread (.fileWorker ⟨0, by decide⟩),
    .thread (.blobWorker ⟨0, by decide⟩), .thread (.blobWorker ⟨1, by decide⟩),
    .thread (.fileWorker ⟨0, by decide⟩), .thread (.treeWorker ⟨0, by decide⟩),
    .thread (.blobWorker ⟨0, by decide⟩), .thread (.treeWorker ⟨0, by decide⟩),
    .thread .walk, .thread (.blobWorker ⟨1, by decide⟩), .thread .walk, .environment,
    .thread (.blobWorker ⟨0, by decide⟩), .thread (.blobWorker ⟨1, by decide⟩),
    .thread (.fileWorker ⟨0, by decide⟩), .thread (.treeWorker ⟨0, by decide⟩)]

def sampleResults : Role sampleConfig → Except Error (Option ID)
  | .walk => .ok (some sampleRoot)
  | _ => .ok none

theorem exists_writesSnapshot (P : RepoState → Prop) [DecidablePred P]
    (h : let final := (pool sampleConfig sampleStart sampleTarget).play playback sampleTurns
      (∀ role, final.result? role = some (sampleResults role)) ∧
        ((prefixRepo.flush.play (Repository.playback sampleNonce fun _ _ => none)
          final.state.1).any fun found => found.1 = none ∧ P found.2)) :
    ∃ s, WritesSnapshot sampleConfig sampleStart sampleTarget sampleRoot s ∧ P s := by
  obtain ⟨hended, hflush⟩ := h
  obtain ⟨err, s, hflush, rfl, hP⟩ := exists_runs _ _ _ _ hflush
  refine ⟨s, ⟨_, sampleResults, Pool.steps_play playback _ sampleTurns,
    Pool.finished_of_result? hended, ?_, rfl, hflush⟩, hP⟩
  rintro (_ | _ | _ | _) <;> exact ⟨_, rfl⟩

theorem refers_sampleRoot : Refers sampleConfig.treeOf sampleRoot ⟨prefixHash [2, 3], .data⟩ := by
  have hroot : sampleConfig.treeOf sampleRoot = some ⟨[savedDir]⟩ := by decide
  have hdir : sampleConfig.treeOf (prefixHash (sampleMarshal ⟨[savedFile]⟩)) =
      some ⟨[savedFile]⟩ := by decide
  exact .content (.subtree .root hroot (by decide)) hdir List.mem_cons_self rfl (by decide)

theorem snapshot_not_dangling_file :
    ∃ s, WritesSnapshot sampleConfig sampleStart sampleTarget sampleRoot s ∧
      ∃ pb, pb.toBlobHandle = ⟨prefixHash [2, 3], .data⟩ ∧ s.Listed pb ∧
        ∃ content, s.packs.load pb.packID = some content := by
  obtain ⟨s, h, -⟩ := exists_writesSnapshot (fun _ => True) (by decide +kernel)
  obtain ⟨-, pb, hpb, hlisted, hstored⟩ := snapshot_not_dangling
    (RepoState.opened_new _ _) rfl Repository.prefixHash_ne_null
    (fun pb hpb => absurd hpb (Multiset.notMem_zero pb)) h _ refers_sampleRoot
  exact ⟨s, h, pb, hpb, hlisted.resolve_left (Multiset.notMem_zero pb), hstored⟩

end Rapi.Archiver
