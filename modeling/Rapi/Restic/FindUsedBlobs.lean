import Rapi.Restic.TreeVisits

/-!
# The blobs that snapshots use

`FindUsedBlobs` streams the trees of the given roots and collects the handles
of all trees and of the contents of all files in a set.  `Explored` says what
the set knows in every state; when the filter has drained everything and the
consumer read it without an error, the set is closed under reachability.
-/

namespace Rapi.Restic

open Foundation TreeStream Multiset

namespace FindUsedBlobs

def insertContent (blobs : BlobSet) (node : TreeNode) : BlobSet :=
  match node.type with
  | .file => node.content.foldl (fun blobs blob => insert (dataHandle blob) blobs) blobs
  | _ => blobs

def consume (blobs : BlobSet) (item : TreeItem) : Except LoadError BlobSet :=
  match item.result with
  | .error error => .error error
  | .ok tree => .ok (tree.nodes.foldl insertContent blobs)

def config (lookupBlobSize : ID → Option Nat) (hasCounter : Bool) : Config BlobSet :=
  ⟨lookupBlobSize, skip, consume, hasCounter⟩

/-- What `wg.Wait` returns once all goroutines have ended. -/
def Returns (s : State BlobSet) : Option LoadError → Prop
  | none => s.Ended ∧ s.consumer = .finished
  | some error => s.Ended ∧ s.consumer = .failed error

def HasContent (tree : Tree) (blob : ID) : Prop :=
  ∃ node ∈ tree.nodes, node.type = .file ∧ blob ∈ node.content

section Reachability

variable (load : ID → LoadResult) (trees : List ID)

inductive Used : BlobHandle → Prop
  | tree {id : ID} : Reachable load trees id → Used (treeHandle id)
  | data {id blob : ID} {tree : Tree} : Reachable load trees id →
      load id = .ok (some tree) → HasContent tree blob → Used (dataHandle blob)

structure Closed (blobs : BlobSet) : Prop where
  subtrees : ∀ id tree sub, treeHandle id ∈ blobs →
    load id = .ok (some tree) → sub ∈ tree.subtrees → sub.isNull = false → treeHandle sub ∈ blobs
  content : ∀ id tree blob, treeHandle id ∈ blobs →
    load id = .ok (some tree) → HasContent tree blob → dataHandle blob ∈ blobs

end Reachability

variable {blobs : BlobSet}

theorem mem_insertContent {node : TreeNode} {h : BlobHandle} :
    h ∈ insertContent blobs node ↔ h ∈ blobs ∨
      (node.type = .file ∧ ∃ blob ∈ node.content, h = dataHandle blob) := by
  have hfold : ∀ (content : List ID) (blobs : BlobSet),
      h ∈ content.foldl (fun blobs blob => insert (dataHandle blob) blobs)
        blobs ↔ h ∈ blobs ∨ ∃ blob ∈ content, h = dataHandle blob := by
    intro content
    induction content with
    | nil => simp
    | cons blob content ih =>
      intro blobs
      rw [List.foldl_cons, ih, Finset.mem_insert]
      simp only [List.mem_cons, exists_eq_or_imp]
      tauto
  unfold insertContent
  split
  · next htype => simp [hfold, htype]
  · next htype => simp [show node.type ≠ .file from htype]

theorem mem_foldl_insertContent {tree : Tree} {h : BlobHandle} :
    h ∈ tree.nodes.foldl insertContent blobs ↔
      h ∈ blobs ∨ ∃ blob, HasContent tree blob ∧ h = dataHandle blob := by
  obtain ⟨nodes⟩ := tree
  simp only [HasContent]
  induction nodes generalizing blobs with
  | nil => simp
  | cons node nodes ih =>
    rw [List.foldl_cons, ih, mem_insertContent]
    simp only [List.mem_cons, exists_eq_or_imp]
    constructor
    · rintro ((hold | ⟨hfile, blob, hblob, rfl⟩) | ⟨blob, hnodes, rfl⟩)
      · exact .inl hold
      · exact .inr ⟨blob, .inl ⟨hfile, hblob⟩, rfl⟩
      · exact .inr ⟨blob, .inr hnodes, rfl⟩
    · rintro (hold | ⟨blob, ⟨hfile, hblob⟩ | hnodes, rfl⟩)
      · exact .inl (.inl hold)
      · exact .inl (.inr ⟨hfile, blob, hblob, rfl⟩)
      · exact .inr ⟨blob, hnodes, rfl⟩

section Exploration

variable {load : ID → LoadResult} {trees : List ID} {blobs : BlobSet}
  {lookupBlobSize : ID → Option Nat} {hasCounter : Bool} {s t : State BlobSet} {e : Event}

structure Explored (load : ID → LoadResult) (trees : List ID) (blobs : BlobSet)
    (s : State BlobSet) : Prop extends Visited load trees blobs s where
  sound : ∀ h ∈ s.client, h ∈ blobs ∨ Used load trees h
  processing : ∀ item, s.consumer = .processing item → item ∈ s.past.delivered
  delivered : ∀ item ∈ s.past.delivered, s.consumer = .processing item ∨
    (∃ error, s.consumer = .failed error) ∨
    ∃ tree, item.result = .ok tree ∧
      ∀ blob, HasContent tree blob → dataHandle blob ∈ s.client

theorem explored_start : Explored load trees blobs (start trees blobs) :=
  { visited_start with
    sound := fun h hmem => .inl hmem
    processing := by simp [start]
    delivered := by simp [start] }

variable {client : BlobSet} {item : TreeItem}

theorem gains_of_consume {client' : BlobSet} (h : consume client item = .ok client') :
    Gains client client' := by
  unfold consume at h
  split at h
  · contradiction
  · cases h
    refine ⟨fun handle hhandle => mem_foldl_insertContent.2 (.inl hhandle), ?_⟩
    intro id hid
    rcases mem_foldl_insertContent.1 hid with hold | ⟨blob, -, heq⟩
    · exact hold
    · exact absurd heq (treeHandle_ne_dataHandle id blob)

private theorem Explored.delivered_mono (h : Explored load trees blobs s)
    (hgrows : s.client ⊆ client) (hitem : item ∈ s.past.delivered) :
    s.consumer = .processing item ∨ (∃ error, s.consumer = .failed error) ∨
      ∃ tree, item.result = .ok tree ∧
        ∀ blob, HasContent tree blob → dataHandle blob ∈ client := by
  rcases h.delivered item hitem with hnow | hfailed | ⟨tree, hok, hdata⟩
  · exact .inl hnow
  · exact .inr (.inl hfailed)
  · exact .inr (.inr ⟨tree, hok, fun blob hblob => hgrows (hdata blob hblob)⟩)

private theorem Explored.consume (h : Explored load trees blobs s)
    (hb : Balance trees s) (hconsumer : s.consumer = .processing item)
    (hconsume : FindUsedBlobs.consume s.client item = .ok client) :
    Explored load trees blobs { s with client := client, consumer := .reading } := by
  have hgains := gains_of_consume hconsume
  obtain ⟨tree, htree, rfl⟩ : ∃ tree, item.result = .ok tree ∧
      tree.nodes.foldl insertContent s.client = client := by
    unfold FindUsedBlobs.consume at hconsume
    split at hconsume
    · contradiction
    · next tree htree => exact ⟨tree, htree, Except.ok.inj hconsume⟩
  obtain ⟨origin, horigin, hitem⟩ := exists_of_delivered hb (h.processing item hconsumer)
  have hreturned := mem_of_received hb horigin
  have hload : load origin.1.id = .ok (some tree) := by
    rw [← hitem, treeItem_result_eq_ok] at htree
    rcases h.results origin hreturned with hload | ⟨-, herror⟩
    · rw [← hload, htree]
    · simp [htree] at herror
  have hreachable := h.reachable origin.1
    (pushed_of_accepted hb (accepted_of_returned hb hreturned))
  refine { h.toVisited.gain hgains with
    sound := ?_
    processing := by simp
    delivered := ?_ }
  · intro handle hhandle
    rcases mem_foldl_insertContent.1 hhandle with hold | ⟨blob, hblob, rfl⟩
    · exact h.sound handle hold
    · exact .inr (.data hreachable hload hblob)
  · intro other hother
    refine .inr (.inr ?_)
    rcases h.delivered_mono hgains.grows hother with hnow | ⟨error, hfailed⟩ | hread
    · rw [hconsumer] at hnow
      cases hnow
      exact ⟨tree, htree, fun blob hblob => mem_foldl_insertContent.2 (.inr ⟨blob, hblob, rfl⟩)⟩
    · simp [hconsumer] at hfailed
    · exact hread

theorem Explored.step (h : Explored load trees blobs s) (hb : Balance trees s)
    (hload : LoadsBy load s e) (hstep : Step (config lookupBlobSize hasCounter) s e t) :
    Explored load trees blobs t := by
  have hvisited := h.toVisited.step hb rfl (fun _ _ _ => gains_of_consume) hload hstep
  cases hstep with
  | @skip treeID backlog client hrun hnext hbacklog hskip =>
    simp only [config, FindUsedBlobs.skip, Prod.mk.injEq, decide_eq_true_eq] at hskip
    obtain ⟨hmem, rfl⟩ := hskip
    rw [Finset.insert_eq_of_mem hmem] at hvisited ⊢
    exact { hvisited with
      sound := h.sound
      processing := h.processing
      delivered := h.delivered }
  | @accept treeID backlog client hrun hnext hbacklog hskip =>
    obtain rfl : insert (treeHandle treeID.id) s.client = client := congrArg Prod.snd hskip
    refine { hvisited with
      sound := ?_
      processing := h.processing
      delivered := fun item hitem => h.delivered_mono (Finset.subset_insert _ _) hitem }
    intro handle hhandle
    rcases Finset.mem_insert.1 hhandle with rfl | hhandle
    · refine .inr (.tree (h.reachable treeID ?_))
      rw [hb.popped, hbacklog]
      simp
    · exact h.sound handle hhandle
  | @deliver item hselect hjob hconsumer =>
    refine { hvisited with
      sound := h.sound
      processing := ?_
      delivered := ?_ }
    · intro other hother
      cases hother
      exact mem_cons_self _ _
    · intro other hother
      rcases mem_cons.1 hother with rfl | hother
      · exact .inl rfl
      · refine .inr (.inr ?_)
        simpa [hconsumer, deliverTree] using h.delivered other hother
  | consume hconsumer hconsume => exact h.consume hb hconsumer hconsume
  | fail hconsumer hconsume =>
    exact { hvisited with
      sound := h.sound
      processing := by simp
      delivered := fun _ _ => .inr (.inl ⟨_, rfl⟩) }
  | endConsumer hconsumer hfilter =>
    refine { hvisited with
      sound := h.sound
      processing := by simp
      delivered := ?_ }
    intro item hitem
    refine .inr (.inr ?_)
    simpa [hconsumer] using h.delivered item hitem
  | load | receive | send | sendHuge | takeHuge | receiveClosed | finish
  | abort | giveUp | endLoader | closeLoaded | cancel =>
    exact { hvisited with
      sound := h.sound
      processing := h.processing
      delivered := h.delivered }

theorem explored_of_reaches {allowed : State BlobSet → Event → Prop}
    (hallowed : ∀ s e, allowed s e → LoadsBy load s e)
    (hreach : Reaches (TreeStream.step (config lookupBlobSize hasCounter))
      allowed (start trees blobs) s) : Explored load trees blobs s := by
  induction hreach with
  | refl => exact explored_start
  | next hreach hnext hstep ih =>
    exact ih.step (invariant_of_reaches hreach).balance (hallowed _ _ hnext) (.of_step hstep)

section Completed

variable (h : Explored load trees blobs s)
  (hinv : Invariant (config lookupBlobSize hasCounter) trees s)
  (hdrained : s.Drained) (hfinished : s.consumer = .finished)

include h hinv hdrained hfinished

private theorem Explored.loaded_of_returned {tree : TrackedID × LoadResult}
    (htree : tree ∈ s.past.returned) :
    tree.2 = load tree.1.id ∧ ∃ loaded, load tree.1.id = .ok (some loaded) ∧
      ∀ blob, HasContent loaded blob → dataHandle blob ∈ s.client := by
  have hdelivered : treeItem tree.1 tree.2 ∈ s.past.delivered := by
    rw [hinv.delivered_of_drained hdrained]
    exact mem_map_of_mem (fun tree => treeItem tree.1 tree.2) htree
  obtain ⟨loaded, hok, hdata⟩ : ∃ loaded, (treeItem tree.1 tree.2).result = .ok loaded ∧
        ∀ blob, HasContent loaded blob → dataHandle blob ∈ s.client := by
    simpa [hfinished] using h.delivered _ hdelivered
  rw [treeItem_result_eq_ok] at hok
  rcases h.results tree htree with hload | ⟨-, herror⟩
  · exact ⟨hload, loaded, hload ▸ hok, hdata⟩
  · simp [hok] at herror

private theorem Explored.loaded_of_accepted {tree : TrackedID} (htree : tree ∈ s.past.accepted) :
    ∃ loaded, load tree.id = .ok (some loaded) ∧
      ∀ blob, HasContent loaded blob → dataHandle blob ∈ s.client := by
  rw [hinv.accepted_of_drained hdrained] at htree
  obtain ⟨origin, horigin, rfl⟩ := mem_map.1 htree
  exact (h.loaded_of_returned hinv hdrained hfinished horigin).2

/-- Everything drained and read without an error: the set is complete. -/
theorem Explored.mem_of_used (hclosed : Closed load blobs) {handle : BlobHandle}
    (hused : Used load trees handle) : handle ∈ s.client := by
  have hreachable : ∀ {id}, Reachable load trees id → treeHandle id ∈ s.client := by
    intro id hid
    refine h.toVisited.mem_of_reachable hinv hdrained ?_ hclosed.subtrees hid
    exact fun tree htree => (h.loaded_of_returned hinv hdrained hfinished htree).1
  cases hused with
  | tree hid => exact hreachable hid
  | @data id blob tree hid hload hblob =>
    rcases h.known id (hreachable hid) with hold | ⟨origin, horigin, rfl⟩
    · exact h.grows (hclosed.content id tree blob hold hload hblob)
    · obtain ⟨loaded, hload', hdata⟩ := h.loaded_of_accepted hinv hdrained hfinished horigin
      rw [hload] at hload'
      cases hload'
      exact hdata blob hblob

end Completed

/-- `LoadTree` fails for a tree that the call has to visit. -/
def Fails (load : ID → LoadResult) (trees : List ID) (blobs : BlobSet) (id : ID) : Prop :=
  Reachable load trees id ∧ treeHandle id ∉ blobs ∧ ∀ tree, load id ≠ .ok (some tree)

def Uncancelled (load : ID → LoadResult) (s : State BlobSet) (e : Event) : Prop :=
  e ≠ .cancel ∧ LoadsBy load s e

private theorem fails_of_cancelled
    (hreach : Reaches (TreeStream.step (config lookupBlobSize hasCounter))
      (Uncancelled load) (start trees blobs) s) :
    s.cancelled → (∃ error, s.consumer = .failed error) ∧
      ∃ id, Fails load trees blobs id := by
  induction hreach with
  | refl => simp [start]
  | @next s t e hreach hallowed hstep ih =>
    have hb := (invariant_of_reaches hreach).balance
    have h := explored_of_reaches (fun _ _ ha => ha.2) hreach
    cases Step.of_step hstep with
    | @fail item error hconsumer hconsume =>
      intro _
      refine ⟨⟨error, rfl⟩, ?_⟩
      by_cases hcancelled : s.cancelled
      · exact (ih hcancelled).2
      obtain ⟨origin, horigin, rfl⟩ := exists_of_delivered hb (h.processing item hconsumer)
      have hreturned := mem_of_received hb horigin
      have haccepted := accepted_of_returned hb hreturned
      refine ⟨origin.1.id, h.reachable _ (pushed_of_accepted hb haccepted), h.fresh _ haccepted, ?_⟩
      intro tree hload
      rcases h.results origin hreturned with hresult | ⟨hnow, -⟩
      · have hok : (treeItem origin.1 origin.2).result = .ok tree :=
          treeItem_result_eq_ok.2 (hresult.trans hload)
        simp [config, FindUsedBlobs.consume, hok] at hconsume
      · exact hcancelled hnow
    | cancel => exact absurd rfl hallowed.1
    | deliver hselect hjob hconsumer =>
      intro hcancelled
      obtain ⟨error, hfailed⟩ := (ih hcancelled).1
      simp [hconsumer] at hfailed
    | consume hconsumer hconsume =>
      intro hcancelled
      obtain ⟨error, hfailed⟩ := (ih hcancelled).1
      simp [hconsumer] at hfailed
    | endConsumer hconsumer hfilter =>
      intro hcancelled
      obtain ⟨error, hfailed⟩ := (ih hcancelled).1
      simp [hconsumer] at hfailed
    | skip | accept | send | sendHuge | takeHuge | load | receive
    | receiveClosed | finish | abort | giveUp | endLoader
    | closeLoaded => exact ih

theorem exists_bound (hfinite : {id | Reachable load trees id}.Finite) : ∃ bound, ∀ n s, ReachesIn
      (TreeStream.step (config lookupBlobSize hasCounter)) (Uncancelled load)
      (start trees blobs) n s → n ≤ bound := by
  refine ⟨7 * (trees.length + ∑ id ∈ hfinite.toFinset, pushes load id) + 11, ?_⟩
  intro n s hreach
  have hlength := length_le hreach
  have hpushed := (explored_of_reaches (fun _ _ ha => ha.2) hreach.reaches).toVisited.card_pushed_le
      (invariant_of_reaches hreach.reaches).balance hfinite
  omega

section Uncancelled

variable (hreach : Reaches (TreeStream.step (config lookupBlobSize hasCounter))
  (Uncancelled load) (start trees blobs) s)

include hreach

theorem progress (hrun : ¬ s.Ended) : ∃ e t, Uncancelled load s e ∧
      TreeStream.step (config lookupBlobSize hasCounter) s e = some t := by
  have hinv := invariant_of_reaches hreach
  obtain ⟨e, t, hcancel, hload, hstep⟩ := (canMove load hinv.balance hinv.phases hrun).exists_step
  exact ⟨e, t, ⟨hcancel, hload⟩, hstep⟩

theorem ended_cases (hended : s.Ended) : (Returns s none ∧ s.Drained) ∨
      ((∃ id, Fails load trees blobs id) ∧ ∃ error, Returns s (some error)) := by
  have hinv := invariant_of_reaches hreach
  have hcancelled := fails_of_cancelled hreach
  cases hconsumer : s.consumer with
  | reading => simp [State.Ended, hconsumer, Consumer.isEnded] at hended
  | processing item => simp [State.Ended, hconsumer, Consumer.isEnded] at hended
  | failed error =>
    exact .inr ⟨(hcancelled (hinv.phases.failed error hconsumer)).2, error, hended, hconsumer⟩
  | finished =>
    refine .inl ⟨⟨hended, hconsumer⟩, ?_⟩
    cases hfilter : s.filter with
    | running => exact absurd hfilter hended.1
    | drained => exact hinv.drained hfilter
    | aborted =>
      obtain ⟨error, hfailed⟩ := (hcancelled (hinv.phases.aborted hfilter)).1
      simp [hconsumer] at hfailed

theorem mem_iff_used (hclosed : Closed load blobs) (hended : s.Ended)
    (hloads : ∀ id, Reachable load trees id → treeHandle id ∉ blobs →
      ∃ tree, load id = .ok (some tree)) :
    Returns s none ∧ ∀ h, h ∈ s.client ↔ h ∈ blobs ∨ Used load trees h := by
  have hinv := invariant_of_reaches hreach
  have h := explored_of_reaches (fun _ _ ha => ha.2) hreach
  rcases ended_cases hreach hended with ⟨hnil, hdrained⟩ | ⟨⟨id, hid, hnew, hfails⟩, -⟩
  · refine ⟨hnil, fun handle => ⟨h.sound handle, ?_⟩⟩
    rintro (hold | hused)
    · exact h.grows hold
    · exact h.mem_of_used hinv hdrained hnil.2 hclosed hused
  · obtain ⟨tree, hload⟩ := hloads id hid hnew
    exact absurd hload (hfails tree)

end Uncancelled

end Exploration

/--
`FindUsedBlobs` without cancellation: every run ends; it returns an error if
and only if some tree it has to visit cannot be loaded, and otherwise the set
gains exactly what the roots use.  No tree is loaded twice.
-/
theorem findUsedBlobs_reachability (load : ID → LoadResult)
    (lookupBlobSize : ID → Option Nat) (hasCounter : Bool) (trees : List ID)
    (blobs : BlobSet) (hclosed : Closed load blobs)
    (hfinite : {id | Reachable load trees id}.Finite) :
    (∃ bound, ∀ n s, ReachesIn
      (TreeStream.step (config lookupBlobSize hasCounter)) (Uncancelled load)
      (start trees blobs) n s → n ≤ bound) ∧
    ∀ s, Reaches (TreeStream.step (config lookupBlobSize hasCounter))
        (Uncancelled load) (start trees blobs) s →
      (¬ s.Ended → ∃ e t, Uncancelled load s e ∧
        TreeStream.step (config lookupBlobSize hasCounter) s e = some t) ∧
      ((loading s.loaders + s.past.returned.map Prod.fst).map TrackedID.id).Nodup ∧
      (s.Ended → (∀ id, Reachable load trees id → treeHandle id ∉ blobs →
          ∃ tree, load id = .ok (some tree)) →
        Returns s none ∧ ∀ h, h ∈ s.client ↔ h ∈ blobs ∨ Used load trees h) ∧
      (s.Ended → (∃ id, Fails load trees blobs id) →
        ∃ error, Returns s (some error)) := by
  refine ⟨exists_bound hfinite, fun s hreach => ?_⟩
  have hinv := invariant_of_reaches hreach
  have h := explored_of_reaches (fun _ _ ha => ha.2) hreach
  refine ⟨progress hreach, ?_, mem_iff_used hreach hclosed, ?_⟩
  · refine nodup_of_le (map_le_map ?_) h.nodup
    rw [hinv.balance.accepted, add_assoc]
    exact le_add_left _ _
  · rintro hend ⟨id, hid, hnew, hfails⟩
    rcases ended_cases hreach hend with ⟨hnil, hdrained⟩ | ⟨-, herror⟩
    · have hmem := h.mem_of_used hinv hdrained hnil.2 hclosed (.tree hid)
      rcases h.known id hmem with hold | ⟨origin, horigin, rfl⟩
      · exact absurd hold hnew
      · obtain ⟨tree, hload, -⟩ := h.loaded_of_accepted hinv hdrained hnil.2 horigin
        exact absurd hload (hfails tree)
    · exact herror

section Sample

def sampleTree : Tree := ⟨[sampleDir [97] (.ofNat 1), sampleFile [98] 0 [.ofNat 3]]⟩

def sampleLoad : ID → LoadResult := fun _ => .ok (some sampleTree)

def sampleConfig : Config BlobSet := config (fun _ => none) false

def sampleEvents : List Event :=
  [.pop, .send 1, .load 1 (.ok (some sampleTree)), .receive 1, .pop, .deliver,
    .consume, .finish] ++ sampleShutdown

theorem sampleLoad_finite : {id | Reachable sampleLoad [ID.ofNat 1] id}.Finite := by
  refine (Set.finite_singleton (ID.ofNat 1)).subset ?_
  intro id hid
  induction hid with
  | root hid => simpa using hid
  | @subtree id sub tree _ hload hsub _ _ =>
    cases hload
    have hsubtrees : sampleTree.subtrees = [ID.ofNat 1] := by decide
    simpa [hsubtrees] using hsub

theorem sampleLoad_closed : Closed sampleLoad ∅ := ⟨by simp, by simp⟩

private theorem returns_of_run (trees : List ID) (events : List Event)
    (check : State BlobSet → Bool) (hcheck : (run (TreeStream.step sampleConfig) (start trees ∅)
      events).any (fun s => s.Ended ∧ check s))
    (hconsumer : (run (TreeStream.step sampleConfig) (start trees ∅)
      events).map State.consumer = some .finished) :
    ∃ s, run (TreeStream.step sampleConfig) (start trees ∅) events = some s ∧
      Returns s none ∧ check s := by
  obtain ⟨s, hrun⟩ : ∃ s, run (TreeStream.step sampleConfig) (start trees ∅) events = some s := by
    cases hrun : run (TreeStream.step sampleConfig) (start trees ∅) events with
    | none => simp [hrun] at hconsumer
    | some s => exact ⟨s, rfl⟩
  simp only [hrun, Option.any_some, decide_eq_true_eq] at hcheck
  simp only [hrun, Option.map_some, Option.some.injEq] at hconsumer
  exact ⟨s, hrun, ⟨hcheck.1, hconsumer⟩, hcheck.2⟩

theorem findUsedBlobs_reachability_sample :
    ∃ s, run (TreeStream.step sampleConfig) (start [ID.ofNat 1] ∅)
        sampleEvents = some s ∧ Returns s none ∧
      ∀ h, h ∈ s.client ↔ h ∈ (∅ : BlobSet) ∨ Used sampleLoad [ID.ofNat 1] h := by
  obtain ⟨s, hrun, hnil, -⟩ := returns_of_run [ID.ofNat 1] sampleEvents
    (fun _ => true) (by decide) rfl
  have hreach : Reaches (TreeStream.step sampleConfig) (Uncancelled sampleLoad)
      (start [ID.ofNat 1] ∅) s := by
    refine reaches_of_run _ .refl ?_ hrun
    simp [sampleEvents, sampleShutdown, Uncancelled, LoadsBy, sampleLoad]
  obtain ⟨-, hall⟩ := findUsedBlobs_reachability sampleLoad (fun _ => none)
    false [ID.ofNat 1] ∅ sampleLoad_closed sampleLoad_finite
  exact ⟨s, hrun, (hall s hreach).2.2.1 hnil.1 fun _ _ _ => ⟨_, rfl⟩⟩

end Sample

/-- `filterTrees` only gives up when the consumer has failed. -/
def Unaborted (load : ID → LoadResult) (s : State BlobSet) (e : Event) : Prop :=
  LoadsBy load s e ∧ (e = .abort → ∃ error, s.consumer = .failed error)

private theorem failed_of_aborted {load : ID → LoadResult} {trees : List ID}
    {lookupBlobSize : ID → Option Nat} {hasCounter : Bool} {s : State BlobSet}
    (hreach : Reaches (TreeStream.step (config lookupBlobSize hasCounter))
      (Unaborted load) (start trees blobs) s) :
    s.filter = .aborted → ∃ error, s.consumer = .failed error := by
  refine hreach.invariant (TreeStream.step _) (P := fun s =>
    s.filter = .aborted → ∃ error, s.consumer = .failed error)
    (by simp [start]) ?_
  intro s e t h hallowed hstep
  cases Step.of_step hstep with
  | abort hselect hcancelled => exact fun _ => hallowed.2 rfl
  | finish hrun hexit => simp
  | fail hconsumer hconsume => exact fun _ => ⟨_, rfl⟩
  | deliver hselect hjob hconsumer =>
    intro hfilter
    simp [hconsumer] at h
    exact absurd hfilter h
  | consume hconsumer hconsume =>
    intro hfilter
    simp [hconsumer] at h
    exact absurd hfilter h
  | endConsumer hconsumer hfilter =>
    intro hfilter
    simp [hconsumer] at h
    exact absurd hfilter h
  | skip | accept | send | sendHuge | takeHuge | load | receive
  | receiveClosed | giveUp | endLoader | closeLoaded | cancel => exact h

/--
The set is complete when nil is returned, in every run where `filterTrees` does
not return because of the context before the consumer has failed; the context
may be cancelled at any time.
-/
theorem findUsedBlobs_complete (load : ID → LoadResult)
    (lookupBlobSize : ID → Option Nat) (hasCounter : Bool) (trees : List ID)
    (blobs : BlobSet) (hclosed : Closed load blobs) {s : State BlobSet}
    (hreach : Reaches (TreeStream.step (config lookupBlobSize hasCounter))
      (Unaborted load) (start trees blobs) s) (hnil : Returns s none) :
    ∀ h, Used load trees h → h ∈ s.client := by
  intro handle hused
  have hinv := invariant_of_reaches hreach
  have h := explored_of_reaches (fun _ _ ha => ha.1) hreach
  obtain ⟨hended, hfinished⟩ := hnil
  have hdrained : s.Drained := by
    cases hfilter : s.filter with
    | running => exact absurd hfilter hended.1
    | drained => exact hinv.drained hfilter
    | aborted =>
      obtain ⟨error, hfailed⟩ := failed_of_aborted hreach hfilter
      simp [hfinished] at hfailed
  exact h.mem_of_used hinv hdrained hfinished hclosed hused

/-- The caller cancels while a tree is loaded, and everything is still read. -/
def lateCancelEvents : List Event :=
  [.pop, .send 1, .cancel, .load 1 (.ok (some sampleTree)), .receive 1, .pop,
    .deliver, .consume, .finish] ++ sampleShutdown

theorem findUsedBlobs_complete_sample :
    ∃ s, run (TreeStream.step sampleConfig) (start [ID.ofNat 1] ∅)
        lateCancelEvents = some s ∧ Returns s none ∧
      ∀ h, Used sampleLoad [ID.ofNat 1] h → h ∈ s.client := by
  obtain ⟨s, hrun, hnil, -⟩ := returns_of_run [ID.ofNat 1] lateCancelEvents
    (fun _ => true) (by decide) rfl
  have hreach : Reaches (TreeStream.step sampleConfig) (Unaborted sampleLoad)
      (start [ID.ofNat 1] ∅) s := by
    refine reaches_of_run _ .refl ?_ hrun
    simp [lateCancelEvents, sampleShutdown, Unaborted, LoadsBy, sampleLoad]
  exact ⟨s, hrun, hnil, findUsedBlobs_complete sampleLoad (fun _ => none)
    false [ID.ofNat 1] ∅ sampleLoad_closed hreach hnil⟩

/-- The caller cancels, and the filter returns before it looks at a root. -/
def cancelledEvents : List Event := [.cancel, .pop, .abort] ++ sampleShutdown

theorem not_findUsedBlobs_complete :
    ¬ ∀ (load : ID → LoadResult) (lookupBlobSize : ID → Option Nat)
      (hasCounter : Bool) (trees : List ID) (blobs : BlobSet),
      Closed load blobs → ∀ s, Reaches
        (TreeStream.step (config lookupBlobSize hasCounter)) (LoadsBy load)
        (start trees blobs) s → Returns s none →
      ∀ h, Used load trees h → h ∈ s.client := by
  intro hall
  obtain ⟨s, hrun, hnil, hmissing⟩ := returns_of_run [ID.ofNat 1, ID.ofNat 2] cancelledEvents
    (fun s => decide (treeHandle (ID.ofNat 1) ∉ s.client)) (by decide) rfl
  have hreach : Reaches (TreeStream.step sampleConfig) (LoadsBy sampleLoad)
      (start [ID.ofNat 1, ID.ofNat 2] ∅) s := by
    refine reaches_of_run _ .refl ?_ hrun
    simp [cancelledEvents, sampleShutdown, LoadsBy]
  have hmem := hall sampleLoad (fun _ => none) false _ ∅ sampleLoad_closed s
    hreach hnil (treeHandle (ID.ofNat 1)) (.tree (.root (by simp)))
  simp [hmem] at hmissing

end FindUsedBlobs

end Rapi.Restic
