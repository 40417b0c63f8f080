import Rapi.Checker.Structure

/-!
# The reports of the checker are complete

Every run of `Structure` ends.  By then every reachable tree has been checked by
one worker, once, and was reported if anything was found.  So nothing is
reported exactly if nothing is wrong.  What is reported for a tree is all that
is wrong with it, unless the tree has a directory with neither a name nor a
subtree.
-/

namespace Rapi.Checker.Structure

open Foundation Restic Repository
open TreeStream (LoadsBy Invariant Balance)
open FindUsedBlobs (Reachable Visited reachable_congr finite_ids)
open List

/-! ## Some goroutine can move -/

section Progress

variable {c : Config} {trees : List ID} {errs : List Bytes} {n : Nat} {s : Checking}

private theorem exists_step_of_consumer {stream t : TreeStream.State BlobSet}
    {consumer : TreeStream.Consumer} {e : TreeStream.Event} (hinternal : internal e)
    (hstep : TreeStream.Step c.stream { stream with consumer := consumer } e t) :
    ∃ t', TreeStream.Step c.stream stream e t' := by
  cases hstep with
  | skip hrun hnext hbacklog hskip => exact ⟨_, .skip hrun hnext hbacklog hskip⟩
  | accept hrun hnext hbacklog hskip => exact ⟨_, .accept hrun hnext hbacklog hskip⟩
  | send hselect hnext hloader hi hhuge => exact ⟨_, .send hselect hnext hloader hi hhuge⟩
  | sendHuge hselect hnext hhuge hroom => exact ⟨_, .sendHuge hselect hnext hhuge hroom⟩
  | takeHuge hloader hchan => exact ⟨_, .takeHuge hloader hchan⟩
  | load hloader => exact ⟨_, .load hloader⟩
  | receive hselect hjob hopen hloader => exact ⟨_, .receive hselect hjob hopen hloader⟩
  | receiveClosed hselect hjob hopen hclosed => exact ⟨_, .receiveClosed hselect hjob hopen hclosed⟩
  | finish hrun hexit => exact ⟨_, .finish hrun hexit⟩
  | abort hselect hcancelled => exact ⟨_, .abort hselect hcancelled⟩
  | giveUp hloader hcancelled => exact ⟨_, .giveUp hloader hcancelled⟩
  | endLoader hloader hfilter hchan => exact ⟨_, .endLoader hloader hfilter hchan⟩
  | closeLoaded hended hclosed => exact ⟨_, .closeLoaded hended hclosed⟩
  | deliver | consume | fail | endConsumer | cancel => cases hinternal

private def CanMove (c : Config) (s : Checking) : Prop :=
  ∃ e t, Loads c (.checking s) (.check e) ∧ CheckStep c s e t

private theorem canMove_of_busy {i : Fin defaultParallelism} (hreading : s.workers i ≠ .reading)
    (hended : s.workers i ≠ .ended) : CanMove c s := by
  cases hworker : s.workers i with
  | reading => exact absurd hworker hreading
  | checking id nodes errs =>
    cases nodes with
    | cons node nodes => exact ⟨.check i, _, trivial, .check hworker⟩
    | nil =>
      cases errs with
      | nil => exact ⟨.check i, _, trivial, .pass hworker⟩
      | cons err errs => exact ⟨.check i, _, trivial, .fail hworker⟩
  | sending error => exact ⟨.send i, _, trivial, .send hworker⟩
  | ended => exact absurd hworker hended

private theorem canMove_of_running (h : Sound c trees errs n s) (hunsent : s.unsent = [])
    (hrun : s.stream.filter = .running) (hreading : ∀ i, s.workers i = .reading) : CanMove c s := by
  have hinv := h.stream.invariant
  obtain ⟨e, t, hcancel, hload, hstep⟩ := TreeStream.canMove c.loadTree
    hinv.balance hinv.phases fun hended : s.stream.Ended => hended.1 hrun
  by_cases hinternal : internal e
  · exact ⟨.stream e, _, hload, .stream hunsent hinternal hstep⟩
  · cases hstep with
    | deliver hselect hjob hconsumer =>
      exact ⟨.take ⟨0, by decide⟩, _, trivial, .take hunsent (hreading _) hselect hjob⟩
    | consume hconsumer | fail hconsumer =>
      rw [h.stream.reading] at hconsumer
      cases hconsumer
    | endConsumer hconsumer hfilter => exact absurd hrun hfilter
    | cancel => exact absurd rfl hcancel
    | _ => exact absurd rfl hinternal

private theorem canMove_of_returned (h : Sound c trees errs n s) (hended : ¬ s.Ended)
    (hunsent : s.unsent = []) (hfilter : s.stream.filter ≠ .running)
    (hworkers : ∀ i, s.workers i = .ended) : CanMove c s := by
  let stream : TreeStream.State BlobSet := { s.stream with consumer := .finished }
  have hinv := h.stream.invariant
  have hbalance : Balance trees stream := { hinv.balance with }
  have hphases : TreeStream.Phases stream :=
    { hinv.phases with finished := fun _ => hfilter, failed := nofun }
  have hrun : ¬ stream.Ended := by
    rintro ⟨-, hloaders, hclosed, -⟩
    refine hended ⟨hunsent, hfilter, hloaders, hclosed, fun i => ?_⟩
    rw [hworkers i]
    rfl
  obtain ⟨e, t, hcancel, hload, hstep⟩ :=
    TreeStream.canMove (c := c.stream) c.loadTree hbalance hphases hrun
  have hinternal : internal e := by
    cases hstep with
    | deliver hselect hjob hconsumer | consume hconsumer | fail hconsumer
    | endConsumer hconsumer => cases hconsumer
    | cancel => exact absurd rfl hcancel
    | _ => rfl
  obtain ⟨t', hstep'⟩ := exists_step_of_consumer hinternal hstep
  exact ⟨.stream e, _, hload, .stream hunsent hinternal hstep'⟩

theorem Sound.progress (h : Sound c trees errs n s) (hended : ¬ s.Ended) :
    ∃ e t, Loads c (.checking s) (.check e) ∧ checkStep c s e = some t := by
  have hmove : CanMove c s := by
    cases hunsent : s.unsent with
    | cons message rest => exact ⟨.report, _, trivial, .report hunsent⟩
    | nil =>
      by_cases hidle : ∀ i, s.workers i = .reading ∨ s.workers i = .ended
      · by_cases hrun : s.stream.filter = .running
        · refine canMove_of_running h hunsent hrun fun i => ?_
          exact (hidle i).resolve_right fun hi => h.ended i hi hrun
        · by_cases hall : ∀ i, s.workers i = .ended
          · exact canMove_of_returned h hended hunsent hrun hall
          · obtain ⟨i, hi⟩ := not_forall.mp hall
            have hreading := (hidle i).resolve_right hi
            exact ⟨.finish i, _, trivial, .finish hunsent hreading hrun⟩
      · obtain ⟨i, hi⟩ := not_forall.mp hidle
        obtain ⟨hreading, hended⟩ := not_or.mp hi
        exact canMove_of_busy hreading hended
  obtain ⟨e, t, hload, hstep⟩ := hmove
  exact ⟨e, t, hload, hstep.step_eq⟩

end Progress

/-! ## What has been reported in the end -/

section Completed

variable {c : Config} {trees : List ID} {errs : List Bytes} {n : Nat} {s : Checking}

def errorsOf (c : Config) (id : ID) : List Error :=
  itemErrors c (TreeStream.treeItem ⟨id, 0⟩ (c.loadTree id))

theorem Sound.reported_of_ended (h : Sound c trees errs n s) (hended : s.Ended) :
    ∃ ids : Multiset ID, ids.Nodup ∧
      (∀ id, id ∈ ids ↔ Reachable c.loadTree trees id) ∧
      s.reported = (errs.map .snapshot : List Report) +
        ids.bind fun id => ofErrors id (errorsOf c id) := by
  have hinv := h.stream.invariant
  have hvisited := h.stream.visited
  have hdrained := h.stream.drained hended.filter
  refine ⟨s.stream.past.accepted.map TrackedID.id, hvisited.nodup, ?_, ?_⟩
  · intro id
    constructor
    · intro hid
      obtain ⟨tree, htree, rfl⟩ := Multiset.mem_map.mp hid
      exact hvisited.reachable tree (FindUsedBlobs.pushed_of_accepted hinv.balance htree)
    · intro hid
      have hmem := hvisited.mem_of_reachable hinv hdrained (fun _ => h.stream.results) (by simp) hid
      obtain hnone | ⟨tree, htree, rfl⟩ := hvisited.known id hmem
      · simp at hnone
      · exact Multiset.mem_map_of_mem _ htree
  · have hpending : ∑ i, (s.workers i).pending c = 0 := by
      refine Finset.sum_eq_zero fun i _ => ?_
      have hworker := hended.workers i
      cases hi : s.workers i with
      | ended => rfl
      | _ => simp [hi, Worker.isEnded] at hworker
    have hreports := h.reports
    rw [hpending, hended.unsent, map_nil, Multiset.coe_nil, add_zero,
      add_zero, hinv.delivered_of_drained hdrained, Multiset.bind_map] at hreports
    rw [hreports, hinv.accepted_of_drained hdrained, Multiset.map_map, Multiset.bind_map]
    congr 1
    refine Multiset.bind_congr fun tree htree => ?_
    rw [h.stream.results htree]
    simp only [Function.comp, errorsOf]
    rcases c.loadTree tree.1.id with _ | _ | loaded <;> rfl

def Report.treeID : Report → Option ID
  | .snapshot _ => none
  | .tree error => some error.id

theorem treeID_of_mem_ofErrors {id : ID} {errs : List Error} {report : Report}
    (h : report ∈ ofErrors id errs) : report.treeID = some id := by
  unfold ofErrors at h
  split at h
  · simp at h
  · rw [Multiset.mem_singleton.mp h]
    rfl

theorem Sound.filter_reported (h : Sound c trees errs n s)
    (hended : s.Ended) {id : ID} (hid : Reachable c.loadTree trees id) :
    s.reported.filter (·.treeID = some id) = ofErrors id (errorsOf c id) := by
  obtain ⟨ids, hnodup, hmem, hreported⟩ := h.reported_of_ended hended
  have hsnapshots : ((errs.map .snapshot : List Report) :
      Multiset Report).filter (·.treeID = some id) = 0 := by
    rw [Multiset.filter_eq_nil]
    intro report hreport
    obtain ⟨message, -, rfl⟩ := mem_map.mp (Multiset.mem_coe.mp hreport)
    nofun
  obtain ⟨rest, rfl⟩ := Multiset.exists_cons_of_mem ((hmem id).mpr hid)
  have hrest : (rest.bind fun other => ofErrors other (errorsOf c other)).filter
      (·.treeID = some id) = 0 := by
    rw [Multiset.filter_eq_nil]
    intro report hreport hsame
    obtain ⟨other, hother, hreport⟩ := Multiset.mem_bind.mp hreport
    rw [treeID_of_mem_ofErrors hreport, Option.some.injEq] at hsame
    exact (Multiset.nodup_cons.mp hnodup).1 (hsame ▸ hother)
  have hself : (ofErrors id (errorsOf c id)).filter (·.treeID = some id) =
      ofErrors id (errorsOf c id) := Multiset.filter_eq_self.mpr fun _ => treeID_of_mem_ofErrors
  rw [hreported, Multiset.filter_add, hsnapshots, zero_add,
    Multiset.cons_bind, Multiset.filter_add, hrest, add_zero, hself]

end Completed

/-! ## The snapshots -/

section Snapshots

variable {results : List (Except Bytes Snapshot)} {trees : List ID} {errs : List Bytes}

def rootOf : Except Bytes Snapshot → Option ID
  | .error _ => none
  | .ok sn => sn.tree

def messageOf : Except Bytes Snapshot → Option Bytes
  | .error message => some message
  | .ok _ => none

theorem loadSnapshotTreeIDs_eq_some (h : loadSnapshotTreeIDs results = some (trees, errs)) :
    trees = results.filterMap rootOf ∧ errs = results.filterMap messageOf ∧
      trees.length + errs.length = results.length := by
  induction results generalizing trees errs with
  | nil =>
    cases h
    exact ⟨rfl, rfl, rfl⟩
  | cons result rest ih =>
    cases result with
    | error message =>
      obtain ⟨⟨ids, errs⟩, hrest, heq⟩ := Option.map_eq_some_iff.mp h
      cases heq
      obtain ⟨rfl, rfl, hlength⟩ := ih hrest
      refine ⟨rfl, rfl, ?_⟩
      simp only [length_cons]
      omega
    | ok sn =>
      simp only [loadSnapshotTreeIDs] at h
      split at h
      · cases h
      · next htree =>
          obtain ⟨⟨ids, errs⟩, hrest, heq⟩ := Option.map_eq_some_iff.mp h
          cases heq
          obtain ⟨rfl, rfl, hlength⟩ := ih hrest
          refine ⟨?_, rfl, ?_⟩
          · rw [filterMap_cons, rootOf, htree]
          · simp only [length_cons]
            omega

theorem exists_loadSnapshotTreeIDs (h : ∀ sn, .ok sn ∈ results → sn.tree ≠ none) :
    ∃ trees errs, loadSnapshotTreeIDs results = some (trees, errs) := by
  induction results with
  | nil => exact ⟨[], [], rfl⟩
  | cons result rest ih =>
    obtain ⟨trees, errs, hrest⟩ := ih fun sn hsn => h sn (mem_cons_of_mem _ hsn)
    cases result with
    | error message => exact ⟨trees, message :: errs, by simp [loadSnapshotTreeIDs, hrest]⟩
    | ok sn =>
      obtain ⟨treeID, htree⟩ := Option.ne_none_iff_exists'.mp (h sn mem_cons_self)
      exact ⟨treeID :: trees, errs, by simp [loadSnapshotTreeIDs, htree, hrest]⟩

def Config.roots (c : Config) : List ID :=
  c.snapshots.filterMap fun id => rootOf (c.loadSnapshot id)

def Config.messages (c : Config) : List Bytes :=
  c.snapshots.filterMap fun id => messageOf (c.loadSnapshot id)

theorem Config.messages_eq_nil {c : Config} :
    c.messages = [] ↔ ∀ id ∈ c.snapshots, ∃ sn, c.loadSnapshot id = .ok sn := by
  simp only [Config.messages, filterMap_eq_nil_iff]
  refine forall₂_congr fun id _ => ?_
  cases c.loadSnapshot id <;> simp [messageOf]

theorem perm_of_results {c : Config} (hperm : results.Perm (c.snapshots.map c.loadSnapshot))
    (h : loadSnapshotTreeIDs results = some (trees, errs)) :
    trees.Perm c.roots ∧ errs.Perm c.messages ∧
      trees.length + errs.length = c.snapshots.length := by
  obtain ⟨rfl, rfl, hlength⟩ := loadSnapshotTreeIDs_eq_some h
  refine ⟨?_, ?_, ?_⟩
  · refine (hperm.filterMap _).trans ?_
    rw [filterMap_map]
    exact .refl _
  · refine (hperm.filterMap _).trans ?_
    rw [filterMap_map]
    exact .refl _
  · rw [hlength, hperm.length_eq, length_map]

end Snapshots

/-! ## Whole runs -/

section Runs

variable {c : Config} {n : Nat} {s t : State} {e : Event}

def State.Ended : State → Prop
  | .checking s => s.Ended
  | _ => False

def Reached (c : Config) (n : Nat) : State → Prop
  | .loading snapshots => Fanout.Reached c.loadSnapshot c.snapshots n snapshots
  | .checking s => ∃ trees errs m, trees.Perm c.roots ∧
      errs.Perm c.messages ∧
      trees.length + errs.length = c.snapshots.length ∧
      CheckRun c trees errs m s ∧ n ≤ 3 * c.snapshots.length + 7 + m
  | .panicked => False

def Config.Rooted (c : Config) : Prop :=
  ∀ id ∈ c.snapshots, ∀ sn, c.loadSnapshot id = .ok sn → sn.tree ≠ none

private theorem exists_trees (hrooted : c.Rooted)
    {snapshots : Fanout.State ID (Except Bytes Snapshot) loadSnapshotParallelism}
    (h : Fanout.Reached c.loadSnapshot c.snapshots n snapshots) (hended : snapshots.Ended) :
    ∃ trees errs, loadSnapshotTreeIDs snapshots.results = some (trees, errs) ∧
      trees.Perm c.roots ∧ errs.Perm c.messages ∧
      trees.length + errs.length = c.snapshots.length := by
  have hperm := h.perm hended
  obtain ⟨trees, errs, hsome⟩ :=
    @exists_loadSnapshotTreeIDs snapshots.results fun sn hsn => by
      obtain ⟨id, hid, hload⟩ := mem_map.mp (hperm.mem_iff.mp hsn)
      exact hrooted id hid sn hload
  exact ⟨trees, errs, hsome, perm_of_results hperm hsome⟩

theorem Reached.next (hrooted : c.Rooted) (h : Reached c n s) (hload : Loads c s e)
    (hstep : step c s e = some t) : Reached c (n + 1) t := by
  cases s with
  | panicked => exact h.elim
  | loading snapshots =>
    cases e with
    | check e => cases hstep
    | snapshot e =>
      obtain ⟨next, hnext, rfl⟩ := Option.map_eq_some_iff.mp hstep
      exact Fanout.Reached.next h (.of_step hnext)
    | stream =>
      simp only [step] at hstep
      split at hstep
      · next hended =>
          obtain ⟨trees, errs, hsome, hroots, hmessages, hlength⟩ := exists_trees hrooted h hended
          rw [hsome] at hstep
          cases hstep
          refine ⟨trees, errs, 0, hroots, hmessages, hlength, .refl, ?_⟩
          have hsteps := (show Fanout.Reached _ _ _ _ from h).steps
          simp only [loadSnapshotParallelism] at hsteps
          omega
      · cases hstep
  | checking s =>
    cases e with
    | snapshot e | stream => cases hstep
    | check e =>
      obtain ⟨next, hnext, rfl⟩ := Option.map_eq_some_iff.mp hstep
      obtain ⟨trees, errs, m, hroots, hmessages, hlength, hrun, hn⟩ := h
      exact ⟨trees, errs, m + 1, hroots, hmessages, hlength, hrun.next hload hnext, by omega⟩

theorem reached_of_reachesIn (hrooted : c.Rooted)
    (hreach : ReachesIn (step c) (Loads c) (start c) n s) : Reached c n s := by
  refine hreach.invariant (step c) Fanout.reached_start ?_
  exact fun n s e t h hload hstep => h.next hrooted hload hstep

theorem Reached.progress (hrooted : c.Rooted) (h : Reached c n s)
    (hended : ¬ s.Ended) : ∃ e t, Loads c s e ∧ step c s e = some t := by
  cases s with
  | panicked => exact h.elim
  | loading snapshots =>
    by_cases hdone : snapshots.Ended
    · obtain ⟨trees, errs, hsome, -⟩ := exists_trees hrooted h hdone
      exact ⟨.stream, _, trivial, by simp [step, hdone, hsome]; rfl⟩
    · obtain ⟨e, t, hstep⟩ := Fanout.Reached.progress h (by decide) hdone
      exact ⟨.snapshot e, _, trivial, by simp [step, hstep]; rfl⟩
  | checking s =>
    obtain ⟨trees, errs, m, -, -, -, hrun, -⟩ := h
    obtain ⟨e, t, hload, hstep⟩ := hrun.sound.progress hended
    exact ⟨.check e, _, hload, by simp [step, hstep]; rfl⟩

/-- How many steps a worker may take for a tree. -/
def costOf (c : Config) (id : ID) : Nat := cost (TreeStream.treeItem ⟨id, 0⟩ (c.loadTree id))

theorem StreamSound.sum_cost_le {trees : List ID} {stream : TreeStream.State BlobSet}
    (h : StreamSound c trees stream) (hfinite : {id | Reachable c.loadTree trees id}.Finite) :
    (stream.past.delivered.map cost).sum ≤ ∑ id ∈ hfinite.toFinset, costOf c id := by
  have hb := h.invariant.balance
  calc (stream.past.delivered.map cost).sum ≤ ((stream.past.received.map fun tree =>
          TreeStream.treeItem tree.1 tree.2).map cost).sum := by
        rw [hb.received, Multiset.map_add, Multiset.sum_add]
        exact Nat.le_add_left _ _
    _ = (stream.past.received.map fun tree => costOf c tree.1.id).sum := by
        rw [Multiset.map_map]
        congr 1
        refine Multiset.map_congr rfl fun tree htree => ?_
        have hload := h.results (FindUsedBlobs.mem_of_received hb htree)
        rw [Function.comp, hload, costOf]
        rcases c.loadTree tree.1.id with _ | _ | loaded <;> rfl
    _ ≤ ∑ id ∈ hfinite.toFinset, costOf c id := h.visited.sum_received_le hb hfinite _

theorem exists_bound (hrooted : c.Rooted) :
    ∃ bound, ∀ n s, ReachesIn (step c) (Loads c) (start c) n s → n ≤ bound := by
  have := finite_ids
  have hfinite : {id | Reachable c.loadTree c.roots id}.Finite := Set.toFinite _
  refine ⟨11 * c.snapshots.length + 23 +
    7 * ∑ id ∈ hfinite.toFinset, FindUsedBlobs.pushes c.loadTree id +
    ∑ id ∈ hfinite.toFinset, costOf c id, ?_⟩
  intro n s hreach
  have h := reached_of_reachesIn hrooted hreach
  cases s with
  | panicked => exact h.elim
  | loading snapshots =>
    have hsteps := (show Fanout.Reached _ _ _ _ from h).steps
    simp only [loadSnapshotParallelism] at hsteps
    omega
  | checking s =>
    obtain ⟨trees, errs, m, hroots, -, hlength, hrun, hn⟩ := h
    have hsound := hrun.sound
    have hset : {id | Reachable c.loadTree trees id} = {id | Reachable c.loadTree c.roots id} :=
      Set.ext fun _ => reachable_congr hroots
    have hfinite' : {id | Reachable c.loadTree trees id}.Finite := hset ▸ hfinite
    have hsame : hfinite'.toFinset = hfinite.toFinset := by
      ext id
      simp [reachable_congr hroots]
    have hpushed := hsound.stream.visited.card_pushed_le hsound.stream.invariant.balance hfinite'
    have hcost := hsound.stream.sum_cost_le hfinite'
    have hsteps := hsound.steps
    rw [hsame] at hpushed hcost
    omega

def defectsOf (c : Config) (id : ID) : List Error :=
  match c.loadTree id with
  | .error _ => [.load .loadTree]
  | .ok none => [.load .treeIsNil]
  | .ok (some tree) => (tree.nodes.flatMap (defects c.idx)).map (.node id)

def SoundTree (c : Config) (id : ID) : Prop :=
  ∃ tree, c.loadTree id = .ok (some tree) ∧ ∀ node ∈ tree.nodes, SoundNode c.idx node

variable {id : ID}

theorem errorsOf_eq_nil : errorsOf c id = [] ↔ SoundTree c id := by
  unfold errorsOf SoundTree
  rcases c.loadTree id with _ | _ | tree
  · simp [TreeStream.treeItem, itemErrors]
  · simp [TreeStream.treeItem, itemErrors]
  · simp [TreeStream.treeItem, itemErrors, checkTree, checkNode_eq_nil]

theorem errorsOf_eq_defectsOf :
    errorsOf c id = defectsOf c id ↔ ∀ tree, c.loadTree id = .ok (some tree) →
      ∀ node ∈ tree.nodes, ¬ Nameless node := by
  unfold errorsOf defectsOf
  rcases c.loadTree id with _ | _ | tree
  · simp [TreeStream.treeItem, itemErrors]
  · simp [TreeStream.treeItem, itemErrors]
  · have hinjective : Function.Injective (Error.node id) := by
      intro first second h
      cases h
      rfl
    simp only [TreeStream.treeItem, itemErrors, checkTree,
      (map_injective_iff.mpr hinjective).eq_iff, flatMap_checkNode_eq,
      Except.ok.injEq, Option.some.injEq]
    exact ⟨fun h tree heq => heq ▸ h, fun h => h tree rfl⟩

theorem ofErrors_injective {errs errs' : List Error} :
    ofErrors id errs = ofErrors id errs' ↔ errs = errs' := by
  unfold ofErrors
  split <;> split <;> simp_all [eq_comm]

theorem Reached.reported_eq_zero {s : Checking} (h : Reached c n (.checking s)) (hended : s.Ended) :
    s.reported = 0 ↔ (∀ id ∈ c.snapshots, ∃ sn, c.loadSnapshot id = .ok sn) ∧
      ∀ id, Reachable c.loadTree c.roots id → SoundTree c id := by
  obtain ⟨trees, errs, m, hroots, hmessages, -, hrun, -⟩ := h
  obtain ⟨ids, -, hmem, hreported⟩ := hrun.sound.reported_of_ended hended
  rw [hreported, ← Multiset.card_eq_zero, Multiset.card_add,
    Nat.add_eq_zero_iff, Multiset.card_eq_zero, Multiset.card_eq_zero,
    Multiset.coe_eq_zero, map_eq_nil_iff]
  refine and_congr ?_ ?_
  · rw [← Config.messages_eq_nil]
    constructor
    · rintro rfl
      exact hmessages.symm.eq_nil
    · intro hnil
      rw [hnil] at hmessages
      exact hmessages.eq_nil
  · rw [Multiset.eq_zero_iff_forall_notMem]
    constructor
    · intro hnone id hid
      rw [← errorsOf_eq_nil]
      by_contra herrors
      refine hnone (.tree ⟨id, errorsOf c id⟩) (Multiset.mem_bind.mpr
        ⟨id, (hmem id).mpr ((reachable_congr hroots).mpr hid), ?_⟩)
      simp [ofErrors, herrors]
    · intro hall report hreport
      obtain ⟨id, hid, hreport⟩ := Multiset.mem_bind.mp hreport
      have hsoundTree := hall id ((reachable_congr hroots).mp ((hmem id).mp hid))
      rw [errorsOf_eq_nil.mpr hsoundTree] at hreport
      simp [ofErrors] at hreport

theorem Reached.complete_iff {s : Checking} (h : Reached c n (.checking s)) (hended : s.Ended) :
    (∀ id, Reachable c.loadTree c.roots id →
      s.reported.filter (·.treeID = some id) = ofErrors id (defectsOf c id)) ↔
      ∀ id tree, Reachable c.loadTree c.roots id →
        c.loadTree id = .ok (some tree) → ∀ node ∈ tree.nodes, ¬ Nameless node := by
  obtain ⟨trees, errs, m, hroots, -, -, hrun, -⟩ := h
  have heach : ∀ id, Reachable c.loadTree c.roots id →
      (s.reported.filter (·.treeID = some id) = ofErrors id (defectsOf c id) ↔
        ∀ tree, c.loadTree id = .ok (some tree) → ∀ node ∈ tree.nodes, ¬ Nameless node) := by
    intro id hid
    rw [hrun.sound.filter_reported hended ((reachable_congr hroots).mpr hid),
      ofErrors_injective, errorsOf_eq_defectsOf]
  constructor
  · exact fun hall id tree hid => (heach id hid).mp (hall id hid) tree
  · exact fun hall id hid => (heach id hid).mpr fun tree => hall id tree hid

end Runs

/--
Every run of `Structure` ends.  Then nothing is reported exactly if all
snapshots and reachable trees can be loaded and the nodes are sound; and each
reachable tree with a defect is reported once with all its defects exactly if
no directory in these trees has neither a name nor a subtree.
-/
theorem structure_reports (c : Config) (hrooted : c.Rooted) :
    (∃ bound, ∀ n s, ReachesIn (step c) (Loads c) (start c) n s → n ≤ bound) ∧
    ∀ n s, ReachesIn (step c) (Loads c) (start c) n s →
      (¬ s.Ended → ∃ e t, Loads c s e ∧ step c s e = some t) ∧
      ∀ checking, s = .checking checking → checking.Ended →
        (checking.reported = 0 ↔
          (∀ id ∈ c.snapshots, ∃ sn, c.loadSnapshot id = .ok sn) ∧
          ∀ id, Reachable c.loadTree c.roots id → SoundTree c id) ∧
        ((∀ id, Reachable c.loadTree c.roots id →
          checking.reported.filter (·.treeID = some id) =
            ofErrors id (defectsOf c id)) ↔
          ∀ id tree, Reachable c.loadTree c.roots id →
            c.loadTree id = .ok (some tree) → ∀ node ∈ tree.nodes,
            ¬ Nameless node) := by
  refine ⟨exists_bound hrooted, fun n s hreach => ?_⟩
  have h := reached_of_reachesIn hrooted hreach
  refine ⟨h.progress hrooted, ?_⟩
  rintro checking rfl hended
  exact ⟨h.reported_eq_zero hended, h.complete_iff hended⟩

/-! ## Sample repositories -/

section Samples

def sampleConfig (nodes : List TreeNode) : Config where
  snapshots := [.ofNat 1]
  loadSnapshot _ := .ok ⟨some (.ofNat 2)⟩
  loadTree _ := .ok (some ⟨nodes⟩)
  idx := .new (fun _ _ => 0) 0
  trackUnused := true
  hasCounter := false

def brokenDir : TreeNode := { sampleDir [] .null with subtree := none }

theorem sampleConfig_rooted (nodes : List TreeNode) : (sampleConfig nodes).Rooted := by
  rintro id - sn hsn
  cases hsn
  nofun

theorem sampleConfig_root (nodes : List TreeNode) :
    Reachable (sampleConfig nodes).loadTree (sampleConfig nodes).roots (.ofNat 2) :=
  .root (by simp [Config.roots, sampleConfig, rootOf])

theorem exists_run {c : Config} (hrooted : c.Rooted) :
    ∃ n s, ReachesIn (step c) (Loads c) (start c) n (.checking s) ∧ s.Ended := by
  obtain ⟨bound, hbound⟩ := exists_bound hrooted
  obtain ⟨n, s, hreach, hended⟩ := exists_ended (step c) hbound
    fun n s hreach => (reached_of_reachesIn hrooted hreach).progress hrooted
  cases s with
  | checking s => exact ⟨n, s, hreach, hended⟩
  | _ => exact hended.elim

/-- The missing name of the directory is not reported. -/
theorem nameless_unreported :
    ∃ n s, ReachesIn (step (sampleConfig [brokenDir]))
        (Loads (sampleConfig [brokenDir])) (start (sampleConfig [brokenDir]))
        n (.checking s) ∧
      s.Ended ∧
      Reachable (sampleConfig [brokenDir]).loadTree
        (sampleConfig [brokenDir]).roots (.ofNat 2) ∧
      s.reported.filter (·.treeID = some (.ofNat 2)) =
        {.tree ⟨.ofNat 2, [.node (.ofNat 2) (.noSubtree [])]⟩} ∧
      defectsOf (sampleConfig [brokenDir]) (.ofNat 2) =
        [.node (.ofNat 2) (.noSubtree []), .node (.ofNat 2) .emptyName] := by
  have hrooted := sampleConfig_rooted [brokenDir]
  obtain ⟨n, s, hreach, hended⟩ := exists_run hrooted
  refine ⟨n, s, hreach, hended, sampleConfig_root _, ?_, rfl⟩
  obtain ⟨trees, errs, m, hroots, -, -, hrun, -⟩ := reached_of_reachesIn hrooted hreach
  exact hrun.sound.filter_reported hended ((reachable_congr hroots).mpr (sampleConfig_root _))

theorem structure_reports_nameless :
    (sampleConfig [brokenDir]).Rooted ∧
    ∃ n s, ReachesIn (step (sampleConfig [brokenDir]))
        (Loads (sampleConfig [brokenDir])) (start (sampleConfig [brokenDir]))
        n (.checking s) ∧
      s.Ended ∧ s.reported ≠ 0 := by
  have hrooted := sampleConfig_rooted [brokenDir]
  obtain ⟨n, s, hreach, hended⟩ := exists_run hrooted
  obtain ⟨-, hall⟩ := structure_reports (sampleConfig [brokenDir]) hrooted
  refine ⟨hrooted, n, s, hreach, hended, fun hzero => ?_⟩
  obtain ⟨-, hsound⟩ := (((hall n _ hreach).2 s rfl hended).1.mp hzero)
  obtain ⟨tree, hload, hnodes⟩ := hsound _ (sampleConfig_root _)
  cases hload
  exact (hnodes brokenDir mem_cons_self).name rfl

end Samples

end Rapi.Checker.Structure
