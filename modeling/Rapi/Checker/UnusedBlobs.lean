import Rapi.Checker.Reports
import Rapi.Restic.FindUsedBlobs

/-!
# Two notions of used blobs

`UnusedBlobs` lists the blobs of the index that are not in `blobRefs` after
`Structure`.  `FindUsedBlobs` collects the used blobs on its own.  When all
trees can be loaded, both agree about every blob except the data blob with the
null ID: the checker never notes it, and reports each file that refers to it.
-/

namespace Rapi.Checker.Structure

open Foundation Restic Repository Function List FindUsedBlobs
open FindUsedBlobs (Reachable Visited reachable_congr reachable_mono Used HasContent)

/-- Panics, modelled by `none`, when references were not tracked. -/
def unusedBlobs (c : Config) (s : Checking) : Option (List BlobHandle) :=
  if c.trackUnused then
    some ((c.idx.each.map (·.toBlobHandle)).filter fun h => h ∉ s.stream.client)
  else none

/-! ## What has been noted -/

section Noted

variable {c : Config} {trees : List ID} {errs : List Bytes} {n : Nat}
  {s t : Checking} {e : CheckEvent}

def ContentIn (node : TreeNode) (blobs : BlobSet) : Prop :=
  node.type = .file → ∀ blobID ∈ node.content, blobID.isNull = false → dataHandle blobID ∈ blobs

def Holds (s : Checking) (id : ID) (node : TreeNode) : Prop :=
  ∃ i nodes errs, s.workers i = .checking id nodes errs ∧ node ∈ nodes

structure Noted (c : Config) (trees : List ID) (s : Checking) : Prop where
  sound : ∀ h ∈ s.stream.client, Used c.loadTree trees h ∧ h ≠ dataHandle .null
  checking : ∀ i id nodes errs, s.workers i = .checking id nodes errs →
    Reachable c.loadTree trees id ∧
      ∃ tree, c.loadTree id = .ok (some tree) ∧ nodes ⊆ tree.nodes
  noted : c.trackUnused → ∀ item ∈ s.stream.past.delivered,
    ∀ tree, item.result = .ok tree → ∀ node ∈ tree.nodes,
      ContentIn node s.stream.client ∨ Holds s item.id node

theorem noted_start : Noted c trees (startChecking trees errs) where
  sound := by simp [startChecking, TreeStream.start]
  checking := nofun
  noted := by simp [startChecking, TreeStream.start]

theorem StreamSound.load_of_job {stream : TreeStream.State BlobSet} (h : StreamSound c trees stream)
    {item : TreeItem} (hjob : stream.job = some item) {tree : Tree} (hok : item.result = .ok tree) :
    Reachable c.loadTree trees item.id ∧ c.loadTree item.id = .ok (some tree) := by
  have hb := h.invariant.balance
  obtain ⟨origin, horigin, rfl⟩ : ∃ origin ∈ stream.past.received,
      TreeStream.treeItem origin.1 origin.2 = item := by
    apply Multiset.mem_map.1
    rw [hb.received, hjob]
    simp
  have hreturned := mem_of_received hb horigin
  have hid : (TreeStream.treeItem origin.1 origin.2).id = origin.1.id := by
    rcases origin.2 with _ | _ | loaded <;> rfl
  rw [treeItem_result_eq_ok] at hok
  rw [hid]
  refine ⟨h.visited.reachable origin.1 (pushed_of_accepted hb
    (accepted_of_returned hb hreturned)), ?_⟩
  rw [← h.results hreturned, hok]

private theorem client_of_step {stream stream' : TreeStream.State BlobSet} {e : TreeStream.Event}
    (hinternal : internal e) (hstep : TreeStream.Step c.stream stream e stream') :
    stream'.client = stream.client ∨
      ∃ id, stream'.client = insert (treeHandle id) stream.client := by
  cases hstep with
  | skip hrun hnext hbacklog hskip | accept hrun hnext hbacklog hskip =>
    exact .inr ⟨_, (congrArg Prod.snd hskip).symm⟩
  | deliver | consume | fail | endConsumer | cancel => cases hinternal
  | _ => exact .inl rfl

theorem ContentIn.mono {node : TreeNode} {blobs blobs' : BlobSet} (h : ContentIn node blobs)
    (hgrows : blobs ⊆ blobs') : ContentIn node blobs' :=
  fun hfile blobID hblob hnull => hgrows (h hfile blobID hblob hnull)

variable {i : Fin defaultParallelism} {worker : Worker}

private theorem Holds.of_move {id : ID} {node : TreeNode} (h : Holds s id node)
    (hworkers : t.workers = update s.workers i worker)
    (hnone : ∀ id nodes errs, s.workers i = .checking id nodes errs → nodes = []) :
    Holds t id node := by
  obtain ⟨j, nodes, errs, hj, hnode⟩ := h
  refine ⟨j, nodes, errs, ?_, hnode⟩
  have hne : j ≠ i := by
    rintro rfl
    rw [hnone id nodes errs hj] at hnode
    cases hnode
  rw [hworkers, update_of_ne hne, hj]

private theorem checking_update (h : Noted c trees s)
    (hworker : ∀ id nodes errs, worker = .checking id nodes errs →
      Reachable c.loadTree trees id ∧ ∃ tree, c.loadTree id = .ok (some tree) ∧
      nodes ⊆ tree.nodes) (j : Fin defaultParallelism) (id : ID) (nodes : List TreeNode)
    (errs : List Error) (hj : update s.workers i worker j = .checking id nodes errs) :
    Reachable c.loadTree trees id ∧
      ∃ tree, c.loadTree id = .ok (some tree) ∧ nodes ⊆ tree.nodes := by
  rw [update_apply] at hj
  split at hj
  · exact hworker id nodes errs hj
  · exact h.checking j id nodes errs hj

private theorem Noted.of_move (h : Noted c trees s)
    (hworkers : t.workers = update s.workers i worker) (hstream : t.stream = s.stream)
    (hnone : ∀ id nodes errs, s.workers i = .checking id nodes errs → nodes = [])
    (hworker : ∀ id nodes errs, worker ≠ .checking id nodes errs) : Noted c trees t where
  sound := by
    rw [hstream]
    exact h.sound
  checking := by
    rw [hworkers]
    exact checking_update h fun id nodes errs heq => absurd heq (hworker id nodes errs)
  noted := by
    intro htrack item hitem tree hok node hnode
    rw [hstream] at hitem ⊢
    exact (h.noted htrack item hitem tree hok node hnode).imp_right (·.of_move hworkers hnone)

theorem Noted.next (h : Noted c trees s) (hsound : Sound c trees errs n s)
    (hload : Loads c (.checking s) (.check e)) (hstep : CheckStep c s e t) : Noted c trees t := by
  have hsound' := hsound.next hload hstep
  cases hstep with
  | report hunsent => exact { h with }
  | @stream e stream hunsent hinternal hstep =>
    have hdelivered := (stream_frame hinternal hstep).1
    have hvisited := hsound'.stream.visited
    have hclient := client_of_step hinternal hstep
    refine ⟨fun handle hhandle => ?_, h.checking, ?_⟩
    · have hcases : handle ∈ s.stream.client ∨
          ∃ id, handle = treeHandle id := by
        rcases hclient with hsame | ⟨id, hinsert⟩
        · exact .inl (hsame ▸ hhandle)
        · rw [show stream.client = _ from hinsert] at hhandle
          exact (Finset.mem_insert.mp hhandle).symm.imp_right (⟨id, ·⟩)
      rcases hcases with hold | ⟨id, rfl⟩
      · exact h.sound handle hold
      · refine ⟨.tree ?_, treeHandle_ne_dataHandle _ _⟩
        obtain hnone | ⟨tree, htree, rfl⟩ := hvisited.known id hhandle
        · simp at hnone
        · exact hvisited.reachable tree (pushed_of_accepted hsound'.stream.invariant.balance htree)
    · intro htrack item hitem tree hok node hnode
      have hgrows : s.stream.client ⊆ stream.client := by
        rcases hclient with hsame | ⟨id, hinsert⟩
        · rw [hsame]
        · rw [hinsert]
          exact Finset.subset_insert _ _
      rw [show stream.past.delivered = _ from hdelivered] at hitem
      exact (h.noted htrack item hitem tree hok node hnode).imp_left (·.mono hgrows)
  | @take i item hunsent hworker hselect hjob =>
    have hnone : ∀ id nodes errs, s.workers i = .checking id nodes errs → nodes = [] := by
      intro id nodes errs hchecking
      rw [hworker] at hchecking
      cases hchecking
    refine ⟨h.sound, checking_update h ?_, ?_⟩
    · intro id nodes errs heq
      unfold received at heq
      split at heq
      · cases heq
      · next tree hok =>
          cases heq
          obtain ⟨hreachable, hloaded⟩ := hsound.stream.load_of_job hjob hok
          exact ⟨hreachable, tree, hloaded, List.Subset.refl _⟩
    · intro htrack other hother tree hok node hnode
      rcases Multiset.mem_cons.mp hother with rfl | hother
      · refine .inr ⟨i, tree.nodes, [], ?_, hnode⟩
        change update s.workers i (received other) i = _
        rw [update_self, received, hok]
      · exact (h.noted htrack other hother tree hok node hnode).imp_right (·.of_move rfl hnone)
  | @check i id node nodes errs' hworker =>
    obtain ⟨hreachable, tree, hloaded, hnodes⟩ := h.checking i id (node :: nodes) errs' hworker
    refine ⟨fun handle hhandle => ?_, checking_update h ?_, ?_⟩
    · rcases mem_noteContent.mp hhandle with hold | ⟨-, hfile, blobID, hblob, hnull, rfl⟩
      · exact h.sound handle hold
      · refine ⟨.data hreachable hloaded ⟨node, hnodes mem_cons_self, hfile, hblob⟩, fun heq => ?_⟩
        obtain rfl : blobID = .null := congrArg BlobHandle.id heq
        simp [ID.isNull] at hnull
    · intro id' nodes' errs'' heq
      cases heq
      exact ⟨hreachable, tree, hloaded, fun other hother => hnodes (mem_cons_of_mem _ hother)⟩
    · intro htrack item hitem loaded hok other hother
      have hgrows := (gains_noteContent c.trackUnused s.stream.client node).grows
      rcases h.noted htrack item hitem loaded hok other hother with
        hcontent | ⟨j, nodes', errs'', hj, hheld⟩
      · exact .inl (hcontent.mono hgrows)
      · by_cases hji : j = i
        · subst hji
          rw [hworker] at hj
          cases hj
          rcases mem_cons.mp hheld with rfl | hheld
          · refine .inl fun hfile blobID hblob hnull => ?_
            exact mem_noteContent.mpr (.inr ⟨htrack, hfile, blobID, hblob, hnull, rfl⟩)
          · exact .inr ⟨j, nodes, _, update_self _ _ _, hheld⟩
        · refine .inr ⟨j, nodes', errs'', ?_, hheld⟩
          exact (update_of_ne hji _ _).trans hj
  | pass hworker | fail hworker =>
    refine h.of_move rfl rfl (fun id nodes errs heq => ?_) nofun
    rw [hworker] at heq
    cases heq
    rfl
  | send hworker | finish hunsent hworker hfilter =>
    refine h.of_move rfl rfl (fun id nodes errs heq => ?_) nofun
    rw [hworker] at heq
    cases heq

theorem CheckRun.noted (h : CheckRun c trees errs n s) : Noted c trees s := by
  have hboth : Sound c trees errs n s ∧ Noted c trees s :=
    h.invariant (checkStep c) (P := fun n s => Sound c trees errs n s ∧ Noted c trees s)
      ⟨sound_start, noted_start⟩ fun _ _ _ _ hs hload hstep =>
        ⟨hs.1.next hload (.of_step hstep), hs.2.next hs.1 hload (.of_step hstep)⟩
  exact hboth.2

/-- In the end `blobRefs` holds what is used, but for the null data blob. -/
theorem CheckRun.mem_blobRefs (h : CheckRun c trees errs n s)
    (htrack : c.trackUnused) (hended : s.Ended) {handle : BlobHandle} : handle ∈ s.stream.client ↔
      Used c.loadTree trees handle ∧ handle ≠ dataHandle .null := by
  have hstream := h.sound.stream
  have hinv := hstream.invariant
  have hdrained := hstream.drained hended.filter
  have hmem : ∀ {id}, Reachable c.loadTree trees id → treeHandle id ∈ s.stream.client := fun hid =>
    hstream.visited.mem_of_reachable hinv hdrained (fun _ => hstream.results) (by simp) hid
  refine ⟨h.noted.sound handle, ?_⟩
  rintro ⟨hused, hnull⟩
  cases hused with
  | tree hid => exact hmem hid
  | @data id blob tree hid hload hblob =>
    obtain hnone | ⟨treeID, htreeID, rfl⟩ := hstream.visited.known id (hmem hid)
    · simp at hnone
    rw [hinv.accepted_of_drained hdrained] at htreeID
    obtain ⟨origin, horigin, rfl⟩ := Multiset.mem_map.mp htreeID
    have hdelivered : TreeStream.treeItem origin.1 origin.2 ∈
        s.stream.past.delivered := by
      rw [hinv.delivered_of_drained hdrained]
      exact Multiset.mem_map_of_mem (fun tree => TreeStream.treeItem tree.1 tree.2) horigin
    obtain ⟨node, hnode, hfile, hcontent⟩ := hblob
    have hok : (TreeStream.treeItem origin.1 origin.2).result = .ok tree :=
      treeItem_result_eq_ok.mpr ((hstream.results horigin).trans hload)
    rcases h.noted.noted htrack _ hdelivered tree hok node hnode with
      hin | ⟨i, nodes, errs, hi, -⟩
    · refine hin hfile blob hcontent ?_
      have hne : blob ≠ .null := fun heq => hnull (heq ▸ rfl)
      simpa [ID.isNull] using hne
    · have hworker := hended.workers i
      rw [hi] at hworker
      cases hworker

end Noted

theorem used_mono {load : ID → LoadResult} {trees trees' : List ID} (hsubset : trees ⊆ trees')
    {handle : BlobHandle} (h : Used load trees handle) : Used load trees' handle := by
  cases h with
  | tree hid => exact .tree (reachable_mono hsubset hid)
  | data hid hload hblob => exact .data (reachable_mono hsubset hid) hload hblob

/--
After a run of `Structure` that tracks references, and a run of `FindUsedBlobs`
from the roots of all snapshots: the unused blobs are those of the index that
`FindUsedBlobs` did not find, and the data blob with the null ID.
-/
theorem unusedBlobs_eq (c : Config) (hrooted : c.Rooted)
    (htrack : c.trackUnused)
    (hloads : ∀ id, Reachable c.loadTree c.roots id →
      ∃ tree, c.loadTree id = .ok (some tree))
    {n : Nat} {s : Checking}
    (hreach : ReachesIn (step c) (Loads c) (start c) n (.checking s))
    (hended : s.Ended) (lookupBlobSize : ID → Option Nat) (hasCounter : Bool)
    {trees : List ID} (htrees : trees.Perm c.roots)
    {used : TreeStream.State BlobSet}
    (hfind : Reaches (TreeStream.step
        (FindUsedBlobs.config lookupBlobSize hasCounter))
      (FindUsedBlobs.Uncancelled c.loadTree) (TreeStream.start trees ∅) used)
    (hused : used.Ended) :
    FindUsedBlobs.Returns used none ∧
      unusedBlobs c s = some ((c.idx.each.map (·.toBlobHandle)).filter
        fun h => h ∉ used.client ∨ h = dataHandle .null) := by
  obtain ⟨trees', errs, m, hroots, -, -, hrun, -⟩ := reached_of_reachesIn hrooted hreach
  obtain ⟨hreturns, hclient⟩ := mem_iff_used hfind ⟨by simp, by simp⟩ hused
    fun id hid _ => hloads id ((reachable_congr htrees).mp hid)
  refine ⟨hreturns, ?_⟩
  rw [unusedBlobs, if_pos htrack]
  congr 1
  refine filter_congr fun handle _ => ?_
  have hsame : Used c.loadTree trees' handle ↔ Used c.loadTree trees handle :=
    ⟨used_mono (hroots.trans htrees.symm).subset, used_mono (htrees.trans hroots.symm).subset⟩
  rw [decide_eq_decide, hrun.mem_blobRefs htrack hended, hclient, hsame]
  simp only [Finset.notMem_empty, false_or]
  tauto

/-! ## The null ID -/

section Samples

def nullFile : TreeNode := sampleFile [97] 0 [.null]

def nullConfig (idx : MasterIndex) : Config :=
  { sampleConfig [nullFile] with idx := idx }

theorem nullConfig_rooted (idx : MasterIndex) : (nullConfig idx).Rooted :=
  sampleConfig_rooted [nullFile]

theorem exists_null_entry :
    ∃ idx : MasterIndex, ∃ pb ∈ idx.content, pb.toBlobHandle = dataHandle .null := by
  obtain ⟨idx, hidx⟩ := @Index.exists_storePack (.new (fun _ _ => 0) 0)
    [⟨dataHandle .null, 33, 0⟩] rfl (by simp [Index.maxuint32]) (.ofNat 1)
  refine ⟨{ MasterIndex.new (fun _ _ => 0) 0 with rest := [idx] },
    Index.packed (.ofNat 1) ⟨dataHandle .null, 33, 0⟩, ?_, rfl⟩
  rw [MasterIndex.mem_content]
  refine ⟨idx, by simp [MasterIndex.idx], ?_⟩
  rw [(Index.storePack_spec hidx).1]
  simp

theorem exists_used (c : Config) : ∃ used, Reaches (TreeStream.step
        (FindUsedBlobs.config (fun _ => none) false))
      (FindUsedBlobs.Uncancelled c.loadTree) (TreeStream.start c.roots ∅) used ∧ used.Ended := by
  have := finite_ids
  obtain ⟨bound, hbound⟩ := @FindUsedBlobs.exists_bound c.loadTree c.roots ∅
    (fun _ => none) false (Set.toFinite _)
  obtain ⟨n, used, hreach, hended⟩ := exists_ended _ hbound
    fun n used hreach => FindUsedBlobs.progress hreach.reaches
  exact ⟨used, hreach.reaches, hended⟩

/-- The blob is called unused, and was found by `FindUsedBlobs`. -/
theorem null_blob_unused :
    ∃ idx n s used,
      ReachesIn (step (nullConfig idx)) (Loads (nullConfig idx))
        (start (nullConfig idx)) n (.checking s) ∧
      s.Ended ∧
      Reaches (TreeStream.step (FindUsedBlobs.config (fun _ => none) false))
        (FindUsedBlobs.Uncancelled (nullConfig idx).loadTree)
        (TreeStream.start (nullConfig idx).roots ∅) used ∧
      FindUsedBlobs.Returns used none ∧
      ∃ blobs, unusedBlobs (nullConfig idx) s = some blobs ∧
        dataHandle .null ∈ blobs ∧ dataHandle .null ∈ used.client := by
  obtain ⟨idx, pb, hpb, hhandle⟩ := exists_null_entry
  obtain ⟨n, s, hreach, hended⟩ := exists_run (nullConfig_rooted idx)
  obtain ⟨used, hfind, hused⟩ := exists_used (nullConfig idx)
  obtain ⟨hreturns, hclient⟩ := mem_iff_used hfind ⟨by simp, by simp⟩ hused fun _ _ _ => ⟨_, rfl⟩
  obtain ⟨trees, errs, m, hroots, -, -, hrun, -⟩ :=
    reached_of_reachesIn (nullConfig_rooted idx) hreach
  refine ⟨idx, n, s, used, hreach, hended, hfind, hreturns, _, rfl, ?_, ?_⟩
  · refine mem_filter.mpr ⟨mem_map.mpr ⟨pb, MasterIndex.mem_each.mpr hpb, hhandle⟩, ?_⟩
    rw [decide_eq_true_iff, hrun.mem_blobRefs rfl hended]
    exact fun h => h.2 rfl
  · refine (hclient _).mpr (.inr (.data (sampleConfig_root [nullFile]) rfl ?_))
    exact ⟨nullFile, mem_cons_self, rfl, mem_cons_self⟩

theorem unusedBlobs_eq_null :
    ∃ idx n s, ∃ used : TreeStream.State BlobSet,
      ReachesIn (step (nullConfig idx)) (Loads (nullConfig idx))
        (start (nullConfig idx)) n (.checking s) ∧
      s.Ended ∧ used.Ended ∧
      unusedBlobs (nullConfig idx) s = some
        ((idx.each.map (·.toBlobHandle)).filter
          fun h => h ∉ used.client ∨ h = dataHandle .null) := by
  obtain ⟨idx, -⟩ := exists_null_entry
  obtain ⟨n, s, hreach, hended⟩ := exists_run (nullConfig_rooted idx)
  obtain ⟨used, hfind, hused⟩ := exists_used (nullConfig idx)
  exact ⟨idx, n, s, used, hreach, hended, hused,
    (unusedBlobs_eq (nullConfig idx) (nullConfig_rooted idx) rfl
      (fun _ _ => ⟨_, rfl⟩) hreach hended (fun _ => none) false (.refl _) hfind hused).2⟩

end Samples

end Rapi.Checker.Structure
