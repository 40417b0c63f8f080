import Rapi.Restic.TreeCompletion

/-!
# The trees that are visited

Two clients of `StreamTrees` keep the trees they have seen in a set of blobs:
`skip` looks a tree up and inserts it.  `Visited` says what such a set knows
about the trees in every state, whatever the consumer adds for the content of
files.  When the filter has drained everything, no reachable tree is missing.
-/

namespace Rapi.Restic

open Foundation TreeStream Multiset

abbrev BlobSet := Finset BlobHandle

def treeHandle (id : ID) : BlobHandle := ⟨id, .tree⟩

def dataHandle (id : ID) : BlobHandle := ⟨id, .data⟩

namespace FindUsedBlobs

def skip (blobs : BlobSet) (treeID : ID) : Bool × BlobSet :=
  (decide (treeHandle treeID ∈ blobs), insert (treeHandle treeID) blobs)

inductive Reachable (load : ID → LoadResult) (trees : List ID) : ID → Prop
  | root {id : ID} : id ∈ trees → Reachable load trees id
  | subtree {id sub : ID} {tree : Tree} : Reachable load trees id →
      load id = .ok (some tree) → sub ∈ tree.subtrees → sub.isNull = false →
      Reachable load trees sub

theorem finite_ids : Finite ID := by
  have hbytes : Finite UInt8 := Finite.of_injective UInt8.toFin fun a b h => UInt8.toFin_inj.mp h
  have hlists := List.finite_length_eq UInt8 idSize
  have : Finite { l : List UInt8 // l.length = idSize } := hlists.to_subtype
  refine Finite.of_injective (fun id : ID => (⟨id.bytes, id.length_bytes⟩ :
      { l : List UInt8 // l.length = idSize })) fun a b h => ?_
  exact ID.ext_bytes (congrArg Subtype.val h)

theorem reachable_mono {load : ID → LoadResult} {trees trees' : List ID} (hsubset : trees ⊆ trees')
    {id : ID} (h : Reachable load trees id) : Reachable load trees' id := by
  induction h with
  | root hid => exact .root (hsubset hid)
  | subtree _ hload hsub hnull ih => exact .subtree ih hload hsub hnull

theorem reachable_congr {load : ID → LoadResult} {trees trees' : List ID}
    (hperm : trees.Perm trees') {id : ID} : Reachable load trees id ↔ Reachable load trees' id :=
  ⟨reachable_mono hperm.subset, reachable_mono hperm.symm.subset⟩

theorem treeHandle_injective : Function.Injective treeHandle := by
  intro first second h
  exact congrArg BlobHandle.id h

theorem treeHandle_ne_dataHandle (first second : ID) : treeHandle first ≠ dataHandle second := by
  simp [treeHandle, dataHandle]

theorem treeItem_result_eq_ok {treeID : TrackedID} {result : LoadResult} {tree : Tree} :
    (treeItem treeID result).result = .ok tree ↔ result = .ok (some tree) := by
  rcases result with _ | _ | loaded <;> simp [treeItem]

section Visits

variable {load : ID → LoadResult} {trees : List ID} {blobs : BlobSet}
  {c : Config BlobSet} {s t : State BlobSet} {e : Event}

variable {tree : TrackedID × LoadResult} {client : BlobSet} {treeID : TrackedID}

theorem mem_of_received (hb : Balance trees s) (h : tree ∈ s.past.received) :
    tree ∈ s.past.returned := by
  rw [hb.returned]
  exact mem_add.2 (.inr h)

theorem accepted_of_returned (hb : Balance trees s) (h : tree ∈ s.past.returned) :
    tree.1 ∈ s.past.accepted := by
  rw [hb.accepted]
  exact mem_add.2 (.inr (mem_map_of_mem _ h))

theorem pushed_of_accepted {tree : TrackedID} (hb : Balance trees s) (h : tree ∈ s.past.accepted) :
    tree ∈ s.past.pushed := by
  rw [hb.popped]
  exact mem_add.2 (.inl (mem_add.2 (.inr h)))

theorem exists_of_delivered {item : TreeItem} (hb : Balance trees s) (h : item ∈ s.past.delivered) :
    ∃ tree ∈ s.past.received, treeItem tree.1 tree.2 = item := by
  apply mem_map.1
  rw [hb.received]
  exact mem_add.2 (.inr h)

structure Visited (load : ID → LoadResult) (trees : List ID)
    (blobs : BlobSet) (s : State BlobSet) : Prop where
  grows : blobs ⊆ s.client
  reachable : ∀ tree ∈ s.past.pushed, Reachable load trees tree.id
  results : ∀ tree ∈ s.past.returned, tree.2 = load tree.1.id ∨
    (s.cancelled ∧ tree.2 = .error ())
  skipped : ∀ tree ∈ s.past.skipped, treeHandle tree.id ∈ s.client
  accepted : ∀ tree ∈ s.past.accepted, treeHandle tree.id ∈ s.client
  known : ∀ id, treeHandle id ∈ s.client →
    treeHandle id ∈ blobs ∨ ∃ tree ∈ s.past.accepted, tree.id = id
  fresh : ∀ tree ∈ s.past.accepted, treeHandle tree.id ∉ blobs
  nodup : (s.past.accepted.map TrackedID.id).Nodup

theorem visited_start : Visited load trees blobs (start trees blobs) where
  grows := by simp [start]
  reachable := by
    intro tree htree
    simp only [start, trackedRoots, mem_coe, List.mem_map] at htree
    obtain ⟨⟨id, idx⟩, hmem, rfl⟩ := htree
    exact .root (List.fst_mem_of_mem_zipIdx hmem)
  results := by simp [start]
  skipped := by simp [start]
  accepted := by simp [start]
  known := fun id hmem => .inl hmem
  fresh := by simp [start]
  nodup := by simp [start]

structure Gains (blobs blobs' : BlobSet) : Prop where
  grows : blobs ⊆ blobs'
  trees : ∀ id, treeHandle id ∈ blobs' → treeHandle id ∈ blobs

theorem Visited.gain (h : Visited load trees blobs s) (hgains : Gains s.client client) :
    Visited load trees blobs { s with client := client } :=
  { h with
    grows := h.grows.trans hgains.grows
    skipped := fun tree htree => hgains.grows (h.skipped tree htree)
    accepted := fun tree htree => hgains.grows (h.accepted tree htree)
    known := fun id hid => h.known id (hgains.trees id hid) }

private theorem Visited.skip (h : Visited load trees blobs s) {backlog : List TrackedID}
    (hskip : FindUsedBlobs.skip s.client treeID.id = (true, client)) :
    Visited load trees blobs (skipTree c s treeID backlog client) := by
  simp only [FindUsedBlobs.skip, Prod.mk.injEq, decide_eq_true_eq] at hskip
  obtain ⟨hmem, rfl⟩ := hskip
  rw [Finset.insert_eq_of_mem hmem]
  refine { h with skipped := ?_ }
  intro tree htree
  rcases mem_cons.1 htree with rfl | htree
  · exact hmem
  · exact h.skipped tree htree

private theorem Visited.accept (h : Visited load trees blobs s) {backlog : List TrackedID}
    (hskip : FindUsedBlobs.skip s.client treeID.id = (false, client)) :
    Visited load trees blobs (acceptTree s treeID backlog client) := by
  simp only [FindUsedBlobs.skip, Prod.mk.injEq, decide_eq_false_iff_not] at hskip
  obtain ⟨hmem, rfl⟩ := hskip
  have hgrows : s.client ⊆ insert (treeHandle treeID.id) s.client := Finset.subset_insert _ _
  refine { h with
    grows := h.grows.trans hgrows
    skipped := fun tree htree => hgrows (h.skipped tree htree)
    accepted := ?_
    known := ?_
    fresh := ?_
    nodup := ?_ }
  · intro tree htree
    rcases mem_cons.1 htree with rfl | htree
    · exact Finset.mem_insert_self _ _
    · exact hgrows (h.accepted tree htree)
  · intro id hid
    rcases Finset.mem_insert.1 hid with hid | hid
    · refine .inr ⟨treeID, mem_cons_self _ _, ?_⟩
      exact (treeHandle_injective hid).symm
    · rcases h.known id hid with hold | ⟨tree, htree, hid⟩
      · exact .inl hold
      · exact .inr ⟨tree, mem_cons_of_mem htree, hid⟩
  · intro tree htree
    rcases mem_cons.1 htree with rfl | htree
    · exact fun hold => hmem (h.grows hold)
    · exact h.fresh tree htree
  · simp only [acceptTree, map_cons]
    refine nodup_cons.2 ⟨?_, h.nodup⟩
    intro hdup
    obtain ⟨tree, htree, hid⟩ := mem_map.1 hdup
    exact hmem (hid ▸ h.accepted tree htree)

private theorem reachable_of_pushedBy {result : LoadResult} {cancelled : Prop}
    (htree : Reachable load trees treeID.id)
    (hresult : result = load treeID.id ∨ (cancelled ∧ result = .error ())) {tree : TrackedID}
    (hpushed : tree ∈ pushedBy treeID result) : Reachable load trees tree.id := by
  rcases result with _ | _ | loaded
  · simp [pushedBy] at hpushed
  · simp [pushedBy] at hpushed
  · simp only [pushedBy, List.mem_map, List.mem_filter] at hpushed
    obtain ⟨id, ⟨hsub, hnull⟩, rfl⟩ := hpushed
    rcases hresult with hload | ⟨-, herror⟩
    · exact .subtree htree hload.symm hsub (by simpa using hnull)
    · simp at herror

private theorem Visited.receive (h : Visited load trees blobs s)
    (hb : Balance trees s) {i : Fin streamTreeParallelism} {result : LoadResult}
    (hloader : s.loaders i = .sending treeID result) :
    Visited load trees blobs (receiveTree c s i treeID result) := by
  have hreturned : (treeID, result) ∈ s.past.returned := by
    obtain ⟨others, others', hloading, hsending, -⟩ := loaders_split hloader
    simp [hb.returned, hsending]
  have htree := h.reachable treeID (pushed_of_accepted hb (accepted_of_returned hb hreturned))
  refine { h with reachable := ?_ }
  intro tree hpushed
  rcases mem_add.1 hpushed with hpushed | hpushed
  · exact h.reachable tree hpushed
  · exact reachable_of_pushedBy htree (h.results _ hreturned) (mem_coe.1 hpushed)

theorem Visited.step (h : Visited load trees blobs s) (hb : Balance trees s)
    (hskips : c.skip = FindUsedBlobs.skip)
    (hconsumes : ∀ client item client', c.consume client item = .ok client' →
      Gains client client') (hload : LoadsBy load s e) (hstep : Step c s e t) :
    Visited load trees blobs t := by
  cases hstep with
  | skip hrun hnext hbacklog hskip =>
    rw [hskips] at hskip
    exact h.skip hskip
  | accept hrun hnext hbacklog hskip =>
    rw [hskips] at hskip
    exact h.accept hskip
  | @load i treeID result hloader =>
    refine { h with results := ?_ }
    intro tree htree
    rcases mem_cons.1 htree with rfl | htree
    · exact hload treeID hloader
    · exact h.results tree htree
  | receive hselect hjob hopen hloader => exact h.receive hb hloader
  | consume hconsumer hconsume => exact { h.gain (hconsumes _ _ _ hconsume) with }
  | fail hconsumer hconsume =>
    exact { h with
      results := fun tree htree =>
        (h.results tree htree).imp_right fun hcancelled => ⟨rfl, hcancelled.2⟩ }
  | cancel hcancelled =>
    exact { h with
      results := fun tree htree =>
        (h.results tree htree).imp_right fun hcancelled => ⟨rfl, hcancelled.2⟩ }
  | send | sendHuge | takeHuge | receiveClosed | deliver | finish | abort
  | giveUp | endLoader | closeLoaded | endConsumer => exact { h with }

section Completed

variable (h : Visited load trees blobs s) (hinv : Invariant c trees s) (hdrained : s.Drained)

include h hinv hdrained

theorem Visited.mem_of_pushed {tree : TrackedID}
    (htree : tree ∈ s.past.pushed) : treeHandle tree.id ∈ s.client := by
  rw [hinv.pushed_of_drained hdrained] at htree
  rcases mem_add.1 htree with htree | htree
  · exact h.skipped tree htree
  · exact h.accepted tree htree

/-- The visited trees are closed under reachability. -/
theorem Visited.mem_of_reachable (hresults : ∀ tree ∈ s.past.returned, tree.2 = load tree.1.id)
    (hclosed : ∀ id tree sub, treeHandle id ∈ blobs →
      load id = .ok (some tree) → sub ∈ tree.subtrees → sub.isNull = false →
      treeHandle sub ∈ blobs) {id : ID} (hid : Reachable load trees id) :
    treeHandle id ∈ s.client := by
  induction hid with
  | @root id hid =>
    obtain ⟨idx, hidx, rfl⟩ := List.mem_iff_getElem.1 hid
    have hroot : (⟨trees[idx], idx⟩ : TrackedID) ∈ s.past.pushed := by
      rw [hinv.balance.pushed]
      refine mem_add.2 (.inl (mem_coe.2 ?_))
      simp only [trackedRoots, List.mem_map]
      refine ⟨(trees[idx], idx), ?_, rfl⟩
      simp [List.mk_mem_zipIdx_iff_getElem?]
    exact h.mem_of_pushed hinv hdrained hroot
  | @subtree id sub tree _ hload hsub hnull ih =>
    rcases h.known id ih with hold | ⟨treeID, htreeID, rfl⟩
    · exact h.grows (hclosed id tree sub hold hload hsub hnull)
    · rw [hinv.accepted_of_drained hdrained] at htreeID
      obtain ⟨origin, horigin, rfl⟩ := mem_map.1 htreeID
      have hpushed : (⟨sub, origin.1.rootIdx⟩ : TrackedID) ∈ s.past.pushed := by
        rw [hinv.balance.pushed, hinv.received_of_drained hdrained]
        refine mem_add.2 (.inr (mem_bind.2 ⟨origin, horigin, ?_⟩))
        simp [(hresults origin horigin).trans hload, pushedBy, hsub, hnull]
      exact h.mem_of_pushed hinv hdrained hpushed

end Completed

def pushes (load : ID → LoadResult) (id : ID) : Nat := (pushedBy ⟨id, 0⟩ (load id)).length

private theorem length_pushedBy_le (h : Visited load trees blobs s)
    (htree : tree ∈ s.past.returned) : (pushedBy tree.1 tree.2).length ≤ pushes load tree.1.id := by
  rcases h.results tree htree with hload | ⟨-, herror⟩
  · rw [hload, pushes]
    rcases load tree.1.id with _ | _ | loaded <;> simp [pushedBy]
  · simp [herror, pushedBy]

theorem Visited.sum_received_le (h : Visited load trees blobs s) (hb : Balance trees s)
    (hfinite : {id | Reachable load trees id}.Finite) (cost : ID → Nat) :
    (s.past.received.map fun tree => cost tree.1.id).sum ≤ ∑ id ∈ hfinite.toFinset, cost id := by
  have hreceived : s.past.received.map Prod.fst ≤ s.past.accepted := by
    rw [hb.accepted, hb.returned, map_add]
    exact (le_add_left _ _).trans (le_add_left _ _)
  have hids : (s.past.received.map Prod.fst).map TrackedID.id ≤
      hfinite.toFinset.val := by
    have hnodup := nodup_of_le (map_le_map hreceived) h.nodup
    refine (le_iff_subset hnodup).2 ?_
    intro id hid
    obtain ⟨tree, htree, rfl⟩ := mem_map.1 hid
    refine Finset.mem_def.1 (hfinite.mem_toFinset.2 ?_)
    exact h.reachable tree (pushed_of_accepted hb (mem_of_le hreceived htree))
  calc (s.past.received.map fun tree => cost tree.1.id).sum
      = (((s.past.received.map Prod.fst).map TrackedID.id).map cost).sum := by
        simp [Multiset.map_map]
    _ ≤ (hfinite.toFinset.val.map cost).sum := by
        obtain ⟨others, hothers⟩ := Multiset.le_iff_exists_add.1 hids
        rw [hothers, Multiset.map_add, Multiset.sum_add]
        exact Nat.le_add_right _ _

theorem Visited.card_pushed_le (h : Visited load trees blobs s) (hb : Balance trees s)
    (hfinite : {id | Reachable load trees id}.Finite) :
    s.past.pushed.card ≤ trees.length + ∑ id ∈ hfinite.toFinset, pushes load id := by
  have hroots : (trackedRoots trees).length = trees.length := by simp [trackedRoots]
  rw [hb.pushed, card_add, card_bind, coe_card, hroots]
  refine Nat.add_le_add_left ?_ _
  refine le_trans ?_ (h.sum_received_le hb hfinite (pushes load))
  refine sum_map_le_sum_map _ _ fun tree htree => ?_
  exact length_pushedBy_le h (mem_of_received hb htree)

end Visits

end FindUsedBlobs

end Rapi.Restic
