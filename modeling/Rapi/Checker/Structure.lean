import Rapi.Checker.CheckTree
import Rapi.Foundation.Fanout

/-!
# Checking all snapshots

`Structure` first loads the snapshots, with five workers that note the root
tree of a snapshot or the error under a lock.  The errors are reported.  Then it
streams the trees below the roots; `skip` keeps the trees seen in `blobRefs`,
and five workers take the trees from the stream, check them node by node, note
the content of files in `blobRefs` if `trackUnused` is set, and report what is
wrong with a tree.

The state of the stream has one consumer, which stands for the five workers: it
is always ready to read, and `take` hands what it has read to one of them.  The
caller reads the reports until the channel is closed.
-/

namespace Rapi.Checker.Structure

open Foundation Restic Repository Function Multiset TreeStream
open TreeStream (LoadsBy Invariant Balance weight)
open FindUsedBlobs (Reachable Visited Gains)

def loadSnapshotParallelism : Nat := 5

def defaultParallelism : Nat := 5

structure Snapshot where
  tree : Option ID
  deriving DecidableEq

/-- An error of `LoadSnapshot` is its message. -/
structure Config where
  snapshots : List ID
  loadSnapshot : ID → Except Bytes Snapshot
  loadTree : ID → LoadResult
  idx : MasterIndex
  trackUnused : Bool
  hasCounter : Bool

inductive Report
  | snapshot (message : Bytes)
  | tree (error : TreeError)
  deriving DecidableEq

/-- The roots and the errors; a snapshot without a tree makes the code panic. -/
def loadSnapshotTreeIDs : List (Except Bytes Snapshot) → Option (List ID × List Bytes)
  | [] => some ([], [])
  | .error message :: rest =>
    (loadSnapshotTreeIDs rest).map fun (ids, errs) => (ids, message :: errs)
  | .ok sn :: rest =>
    match sn.tree with
    | none => none
    | some treeID => (loadSnapshotTreeIDs rest).map fun (ids, errs) => (treeID :: ids, errs)

inductive Worker
  | reading
  | checking (id : ID) (nodes : List TreeNode) (errs : List Error)
  | sending (error : TreeError)
  | ended

/-- The part of `Structure` after the snapshots have been loaded. -/
structure Checking where
  unsent : List Bytes
  stream : TreeStream.State BlobSet
  workers : Fin defaultParallelism → Worker
  reported : Multiset Report

inductive CheckEvent
  | report
  | stream (e : TreeStream.Event)
  | take (i : Fin defaultParallelism)
  | check (i : Fin defaultParallelism)
  | send (i : Fin defaultParallelism)
  | finish (i : Fin defaultParallelism)

/-- The events in which neither the consumer nor the caller takes part. -/
def internal : TreeStream.Event → Bool
  | .deliver | .consume | .endConsumer | .cancel => false
  | _ => true

section Steps

variable (c : Config)

def Config.stream : TreeStream.Config BlobSet where
  lookupBlobSize id := c.idx.lookupSize (treeHandle id)
  skip := FindUsedBlobs.skip
  consume blobs _ := .ok blobs
  hasCounter := c.hasCounter

def startChecking (trees : List ID) (errs : List Bytes) : Checking where
  unsent := errs
  stream := TreeStream.start trees ∅
  workers _ := .reading
  reported := 0

def Checking.set (s : Checking) (i : Fin defaultParallelism) (worker : Worker) : Checking :=
  { s with workers := update s.workers i worker }

/-- What a worker does with a tree first. -/
def received (item : TreeItem) : Worker :=
  match item.result with
  | .error error => .sending ⟨item.id, [.load error]⟩
  | .ok tree => .checking item.id tree.nodes []

def readTree (stream : TreeStream.State BlobSet) (item : TreeItem) : TreeStream.State BlobSet :=
  { TreeStream.deliverTree stream item with consumer := .reading }

def note (stream : TreeStream.State BlobSet) (node : TreeNode) : TreeStream.State BlobSet :=
  { stream with client := noteContent c.trackUnused stream.client node }

def checkStep (s : Checking) : CheckEvent → Option Checking
  | .report =>
    match s.unsent with
    | message :: rest =>
      some { s with
        unsent := rest
        reported := .snapshot message ::ₘ s.reported }
    | [] => none
  | .stream e =>
    if s.unsent = [] ∧ internal e then
      (TreeStream.step c.stream s.stream e).map fun stream => { s with stream := stream }
    else none
  | .take i =>
    match s.workers i, s.stream.job with
    | .reading, some item =>
      if s.unsent = [] ∧ s.stream.Selecting then
        some { s.set i (received item) with
          stream := readTree s.stream item }
      else none
    | _, _ => none
  | .check i =>
    match s.workers i with
    | .checking id (node :: nodes) errs =>
      some { s.set i (.checking id nodes (errs ++ (checkNode c.idx node).map (.node id))) with
        stream := note c s.stream node }
    | .checking _ [] [] => some (s.set i .reading)
    | .checking id [] (err :: errs) => some (s.set i (.sending ⟨id, err :: errs⟩))
    | _ => none
  | .send i =>
    match s.workers i with
    | .sending error =>
      some { s.set i .reading with
        reported := .tree error ::ₘ s.reported }
    | _ => none
  | .finish i =>
    match s.workers i with
    | .reading =>
      if s.unsent = [] ∧ s.stream.filter ≠ .running then some (s.set i .ended)
      else none
    | _ => none

def Worker.isEnded : Worker → Bool
  | .ended => true
  | _ => false

/-- All goroutines have ended, and `errChan` is closed. -/
structure Checking.Ended (s : Checking) : Prop where
  unsent : s.unsent = []
  filter : s.stream.filter ≠ .running
  loaders : ∀ i, (s.stream.loaders i).isEnded
  closed : s.stream.loadedTreeChanClosed
  workers : ∀ i, (s.workers i).isEnded

inductive State
  | loading (snapshots : Fanout.State ID (Except Bytes Snapshot) loadSnapshotParallelism)
  | checking (s : Checking)
  | panicked

inductive Event
  | snapshot (e : Fanout.Event loadSnapshotParallelism)
  | stream
  | check (e : CheckEvent)

def start : State := .loading (Fanout.start c.snapshots)

def step (s : State) (e : Event) : Option State :=
  match s, e with
  | .loading snapshots, .snapshot e => (Fanout.step c.loadSnapshot snapshots e).map .loading
  | .loading snapshots, .stream =>
    if snapshots.Ended then
      match loadSnapshotTreeIDs snapshots.results with
      | none => some .panicked
      | some (trees, errs) => some (.checking (startChecking trees errs))
    else none
  | .checking s, .check e => (checkStep c s e).map .checking
  | _, _ => none

/-- `LoadTree` answers by `loadTree`. -/
def Loads (s : State) (e : Event) : Prop :=
  match s, e with
  | .checking s, .check (.stream e) => LoadsBy c.loadTree s.stream e
  | _, _ => True

/-- The steps of the second part, one case for each thing that can happen. -/
inductive CheckStep (s : Checking) : CheckEvent → Checking → Prop
  | report {message : Bytes} {rest : List Bytes} (hunsent : s.unsent = message :: rest) :
      CheckStep s .report { s with
        unsent := rest
        reported := .snapshot message ::ₘ s.reported }
  | stream {e : TreeStream.Event} {t : TreeStream.State BlobSet}
      (hunsent : s.unsent = []) (hinternal : internal e)
      (hstep : TreeStream.Step c.stream s.stream e t) :
      CheckStep s (.stream e) { s with stream := t }
  | take {i : Fin defaultParallelism} {item : TreeItem}
      (hunsent : s.unsent = []) (hworker : s.workers i = .reading)
      (hselect : s.stream.Selecting) (hjob : s.stream.job = some item) : CheckStep s (.take i)
        { s.set i (received item) with stream := readTree s.stream item }
  | check {i : Fin defaultParallelism} {id : ID} {node : TreeNode}
      {nodes : List TreeNode} {errs : List Error}
      (hworker : s.workers i = .checking id (node :: nodes) errs) : CheckStep s (.check i)
        { s.set i (.checking id nodes (errs ++ (checkNode c.idx node).map (.node id))) with
          stream := note c s.stream node }
  | pass {i : Fin defaultParallelism} {id : ID} (hworker : s.workers i = .checking id [] []) :
      CheckStep s (.check i) (s.set i .reading)
  | fail {i : Fin defaultParallelism} {id : ID} {err : Error} {errs : List Error}
      (hworker : s.workers i = .checking id [] (err :: errs)) :
      CheckStep s (.check i) (s.set i (.sending ⟨id, err :: errs⟩))
  | send {i : Fin defaultParallelism} {error : TreeError} (hworker : s.workers i = .sending error) :
      CheckStep s (.send i) { s.set i .reading with reported := .tree error ::ₘ s.reported }
  | finish {i : Fin defaultParallelism} (hunsent : s.unsent = []) (hworker : s.workers i = .reading)
      (hfilter : s.stream.filter ≠ .running) : CheckStep s (.finish i) (s.set i .ended)

variable {c} {s t : Checking} {e : CheckEvent}

theorem CheckStep.of_step (h : checkStep c s e = some t) : CheckStep c s e t := by
  cases e <;> simp only [checkStep] at h
  case report =>
      split at h
      · next hunsent =>
          cases h
          exact .report hunsent
      · contradiction
  case stream =>
      split at h
      · next hguard =>
          obtain ⟨stream, hstep, rfl⟩ := Option.map_eq_some_iff.mp h
          exact .stream hguard.1 hguard.2 (.of_step hstep)
      · contradiction
  case take =>
      split at h
      · next hworker hjob =>
          obtain ⟨⟨hunsent, hselect⟩, rfl⟩ := by simpa using h
          exact .take hunsent hworker hselect hjob
      · contradiction
  case check =>
      split at h
      · next hworker =>
          cases h
          exact .check hworker
      · next hworker =>
          cases h
          exact .pass hworker
      · next hworker =>
          cases h
          exact .fail hworker
      · contradiction
  case send =>
      split at h
      · next hworker =>
          cases h
          exact .send hworker
      · contradiction
  case finish =>
      split at h
      · next hworker =>
          obtain ⟨⟨hunsent, hfilter⟩, rfl⟩ := by simpa using h
          exact .finish hunsent hworker hfilter
      · contradiction

theorem CheckStep.step_eq (h : CheckStep c s e t) : checkStep c s e = some t := by
  cases h with
  | report hunsent => simp [checkStep, hunsent]
  | stream hunsent hinternal hstep => simp [checkStep, hunsent, hinternal, hstep.step_eq]
  | take hunsent hworker hselect hjob => simp [checkStep, hunsent, hworker, hselect, hjob]
  | check hworker | pass hworker | fail hworker | send hworker => simp [checkStep, hworker]
  | finish hunsent hworker hfilter => simp [checkStep, hunsent, hworker, hfilter]

end Steps

/-! ## The stream behind the workers -/

section Stream

variable {c : Config} {trees : List ID} {s t : TreeStream.State BlobSet}

structure StreamSound (c : Config) (trees : List ID) (s : TreeStream.State BlobSet) : Prop where
  invariant : Invariant c.stream trees s
  visited : Visited c.loadTree trees ∅ s
  reading : s.consumer = .reading
  uncancelled : s.cancelled = false

theorem streamSound_start : StreamSound c trees (TreeStream.start trees ∅) where
  invariant := ⟨balance_start _, phases_start _, counted_start _⟩
  visited := FindUsedBlobs.visited_start
  reading := rfl
  uncancelled := rfl

theorem gains_refl (blobs : BlobSet) : Gains blobs blobs := ⟨Finset.Subset.refl _, fun _ h => h⟩

theorem gains_noteContent (trackUnused : Bool) (blobs : BlobSet)
    (node : TreeNode) : Gains blobs (noteContent trackUnused blobs node) where
  grows := fun _ h => mem_noteContent.mpr (.inl h)
  trees := by
    intro id hid
    rcases mem_noteContent.mp hid with hold | ⟨-, -, blobID, -, -, heq⟩
    · exact hold
    · exact absurd heq (FindUsedBlobs.treeHandle_ne_dataHandle id blobID)

variable {e : TreeStream.Event}

private theorem visited_step (hinv : Invariant c.stream trees s)
    (h : Visited c.loadTree trees ∅ s) (hload : LoadsBy c.loadTree s e)
    (hstep : TreeStream.Step c.stream s e t) : Visited c.loadTree trees ∅ t := by
  refine h.step hinv.balance rfl (fun blobs item client hclient => ?_) hload hstep
  cases hclient
  exact gains_refl _

private theorem invariant_step (h : Invariant c.stream trees s)
    (hstep : TreeStream.Step c.stream s e t) : Invariant c.stream trees t :=
  ⟨h.balance.step hstep, h.phases.step hstep, h.counted.step h.balance hstep⟩

theorem StreamSound.step (h : StreamSound c trees s) (hinternal : internal e)
    (hload : LoadsBy c.loadTree s e) (hstep : TreeStream.Step c.stream s e t) :
    StreamSound c trees t := by
  have hframe : t.consumer = s.consumer ∧ t.cancelled = s.cancelled := by
    cases hstep with
    | deliver | consume | fail | endConsumer | cancel => cases hinternal
    | _ => exact ⟨rfl, rfl⟩
  exact ⟨invariant_step h.invariant hstep, visited_step h.invariant h.visited hload hstep,
    hframe.1.trans h.reading, hframe.2.trans h.uncancelled⟩

/-- Reading a tree is a delivery, and the consumer takes it at once. -/
theorem StreamSound.deliver_consume (h : StreamSound c trees s)
    {item : TreeItem} (hselect : s.Selecting) (hjob : s.job = some item) :
    TreeStream.Step c.stream s .deliver (TreeStream.deliverTree s item) ∧
      TreeStream.Step c.stream (TreeStream.deliverTree s item) .consume (readTree s item) :=
  ⟨.deliver hselect hjob h.reading, .consume rfl rfl⟩

theorem StreamSound.read (h : StreamSound c trees s) {item : TreeItem} (hselect : s.Selecting)
    (hjob : s.job = some item) : StreamSound c trees (readTree s item) := by
  obtain ⟨hdeliver, hconsume⟩ := h.deliver_consume hselect hjob
  have hinv := invariant_step h.invariant hdeliver
  have hvisited := visited_step (e := .deliver) h.invariant h.visited trivial hdeliver
  exact ⟨invariant_step hinv hconsume,
    visited_step (e := .consume) hinv hvisited trivial hconsume, rfl, h.uncancelled⟩

theorem StreamSound.note (h : StreamSound c trees s) (node : TreeNode) :
    StreamSound c trees (note c s node) where
  invariant :=
    ⟨{ h.invariant.balance with }, { h.invariant.phases with }, { h.invariant.counted with }⟩
  visited := h.visited.gain (gains_noteContent _ _ _)
  reading := h.reading
  uncancelled := h.uncancelled

theorem StreamSound.drained (h : StreamSound c trees s)
    (hfilter : s.filter ≠ .running) : s.Drained := by
  cases hphase : s.filter with
  | running => exact absurd hphase hfilter
  | drained => exact h.invariant.drained hphase
  | aborted =>
    have hcancelled := h.invariant.phases.aborted hphase
    simp [h.uncancelled] at hcancelled

theorem StreamSound.results (h : StreamSound c trees s) {tree : TrackedID × LoadResult}
    (htree : tree ∈ s.past.returned) : tree.2 = c.loadTree tree.1.id := by
  refine (h.visited.results tree htree).resolve_right fun hcancelled => ?_
  simp [h.uncancelled] at hcancelled

end Stream

/-! ## Where the reports are -/

section Reports

variable (c : Config)

/-- A tree without errors is not reported. -/
def ofErrors (id : ID) (errs : List Error) : Multiset Report :=
  if errs = [] then 0 else {.tree ⟨id, errs⟩}

def itemErrors (item : TreeItem) : List Error :=
  match item.result with
  | .error error => [.load error]
  | .ok tree => checkTree c.idx item.id tree

def Worker.pending : Worker → Multiset Report
  | .reading => 0
  | .checking id nodes errs => ofErrors id (errs ++ checkTree c.idx id ⟨nodes⟩)
  | .sending error => {.tree error}
  | .ended => 0

def Worker.work : Worker → Nat
  | .reading => 1
  | .checking _ nodes _ => nodes.length + 3
  | .sending _ => 2
  | .ended => 0

def cost (item : TreeItem) : Nat :=
  match item.result with
  | .error _ => 0
  | .ok tree => tree.nodes.length + 1

/-- How many steps there may still be, but for trees that are not read yet. -/
def Checking.work (s : Checking) : Nat :=
  s.unsent.length + (weight s.stream + ∑ i, (s.workers i).work)

structure Sound (trees : List ID) (errs : List Bytes) (n : Nat) (s : Checking) : Prop where
  stream : StreamSound c trees s.stream
  ended : ∀ i, s.workers i = .ended → s.stream.filter ≠ .running
  reports : s.reported + ∑ i, (s.workers i).pending c + (s.unsent.map .snapshot : List Report) =
    (errs.map .snapshot : List Report) +
      s.stream.past.delivered.bind (fun item => ofErrors item.id (itemErrors c item))
  steps : n + s.work ≤ 7 * s.stream.past.pushed.card + 16 + errs.length +
    (s.stream.past.delivered.map cost).sum

variable {c} {trees : List ID} {errs : List Bytes} {n : Nat} {s t : Checking} {e : CheckEvent}

theorem sound_start : Sound c trees errs 0 (startChecking trees errs) where
  stream := streamSound_start
  ended := nofun
  reports := by
    have hdelivered : (startChecking trees errs).stream.past.delivered = 0 := rfl
    rw [hdelivered]
    simp [startChecking, Worker.pending]
  steps := by
    have hworkers : ∑ _ : Fin defaultParallelism, 1 = 5 := by decide
    simp only [Checking.work, startChecking, Worker.work, hworkers, weight_start]
    omega

theorem pending_received (item : TreeItem) :
    (received item).pending c = ofErrors item.id (itemErrors c item) := by
  unfold received itemErrors
  split
  · rfl
  · simp [Worker.pending]

theorem work_received (item : TreeItem) : (received item).work ≤ cost item + 2 := by
  unfold received cost
  split
  · exact le_rfl
  · exact le_rfl

variable {i : Fin defaultParallelism} {worker : Worker}

private theorem reports_of_move (h : Sound c trees errs n s)
    (hworkers : t.workers = update s.workers i worker) (hunsent : t.unsent = s.unsent)
    {more : Multiset Report} (hdelivered :
      t.stream.past.delivered.bind (fun item => ofErrors item.id (itemErrors c item)) = more +
          s.stream.past.delivered.bind (fun item => ofErrors item.id (itemErrors c item)))
    (hmove : t.reported + worker.pending c = s.reported + (s.workers i).pending c + more) :
    t.reported + ∑ j, (t.workers j).pending c + (t.unsent.map .snapshot : List Report) =
      (errs.map .snapshot : List Report) + t.stream.past.delivered.bind
        (fun item => ofErrors item.id (itemErrors c item)) := by
  have hreports := h.reports
  rw [sum_slot (Worker.pending c) s.workers i] at hreports
  rw [hdelivered, add_left_comm, ← hreports, hworkers, hunsent, sum_update_slot (Worker.pending c)]
  generalize ∑ j ∈ Finset.univ.erase i, (s.workers j).pending c = others
  rw [← add_assoc, ← add_assoc, hmove]
  abel

private theorem steps_of_move (h : Sound c trees errs n s)
    (hworkers : t.workers = update s.workers i worker) (hunsent : t.unsent = s.unsent)
    (hmove : worker.work + weight t.stream + 1 + 7 * s.stream.past.pushed.card +
        (s.stream.past.delivered.map cost).sum ≤
      (s.workers i).work + weight s.stream + 7 * t.stream.past.pushed.card +
        (t.stream.past.delivered.map cost).sum) :
    n + 1 + t.work ≤ 7 * t.stream.past.pushed.card + 16 + errs.length +
      (t.stream.past.delivered.map cost).sum := by
  have hsteps := h.steps
  unfold Checking.work at hsteps ⊢
  rw [sum_slot Worker.work s.workers i] at hsteps
  rw [hunsent, hworkers, sum_update_slot Worker.work]
  omega

private theorem ended_update (h : Sound c trees errs n s)
    (hi : worker = .ended → s.stream.filter ≠ .running) (j : Fin defaultParallelism)
    (hj : update s.workers i worker j = .ended) : s.stream.filter ≠ .running := by
  rw [update_apply] at hj
  split at hj
  · exact hi hj
  · exact h.ended j hj

theorem stream_frame {stream stream' : TreeStream.State BlobSet} {e : TreeStream.Event}
    (hinternal : internal e) (hstep : TreeStream.Step c.stream stream e stream') :
    stream'.past.delivered = stream.past.delivered ∧
      (stream.filter ≠ .running → stream'.filter ≠ .running) := by
  cases hstep with
  | deliver | consume | fail | endConsumer | cancel => cases hinternal
  | finish | abort => exact ⟨rfl, fun _ => nofun⟩
  | _ => exact ⟨rfl, fun h => h⟩

theorem Sound.next (h : Sound c trees errs n s) (hload : Loads c (.checking s) (.check e))
    (hstep : CheckStep c s e t) : Sound c trees errs (n + 1) t := by
  cases hstep with
  | @report message rest hunsent =>
    refine ⟨h.stream, h.ended, ?_, ?_⟩
    · have hreports := h.reports
      rw [hunsent] at hreports
      rw [← hreports, List.map_cons, ← cons_coe, ← singleton_add, ← singleton_add]
      dsimp only
      abel
    · have hsteps := h.steps
      simp only [Checking.work, hunsent, List.length_cons] at hsteps ⊢
      omega
  | stream hunsent hinternal hstep =>
    obtain ⟨hdelivered, hfilter⟩ := stream_frame hinternal hstep
    refine ⟨h.stream.step hinternal hload hstep, fun i hi => hfilter (h.ended i hi), ?_, ?_⟩
    · have hreports := h.reports
      rw [← hdelivered] at hreports
      exact hreports
    · have hsteps := h.steps
      have hweight := weight_step hstep
      simp only [Checking.work] at hsteps ⊢
      rw [hdelivered]
      omega
  | @take i item hunsent hworker hselect hjob =>
    obtain ⟨hdeliver, hconsume⟩ := h.stream.deliver_consume hselect hjob
    refine ⟨h.stream.read hselect hjob, ?_, reports_of_move h rfl rfl (cons_bind _ _ _) ?_,
      steps_of_move h rfl rfl ?_⟩
    · refine ended_update h fun hended => ?_
      unfold received at hended
      split at hended <;> cases hended
    · rw [hworker, pending_received]
      simp [Worker.pending, Checking.set]
    · have hfirst := weight_step hdeliver
      have hsecond := weight_step hconsume
      have hwork := work_received item
      have hcost : ((readTree s.stream item).past.delivered.map cost).sum =
          cost item + (s.stream.past.delivered.map cost).sum := by
        simp [readTree, TreeStream.deliverTree]
      rw [hworker, show Worker.reading.work = 1 from rfl]
      dsimp only
      rw [hcost]
      omega
  | @check i id node nodes errs' hworker =>
    refine ⟨h.stream.note node, ended_update h (by rintro ⟨⟩),
      reports_of_move h rfl rfl (zero_add _).symm ?_, steps_of_move h rfl rfl ?_⟩
    · rw [hworker]
      simp [Worker.pending, Checking.set, checkTree]
    · rw [hworker]
      simp only [Worker.work, List.length_cons, note, weight]
      omega
  | pass hworker | fail hworker =>
    refine ⟨h.stream, ended_update h (by rintro ⟨⟩), reports_of_move h rfl rfl (zero_add _).symm ?_,
      steps_of_move h rfl rfl ?_⟩
    · rw [hworker]
      simp [Worker.pending, Checking.set, checkTree, ofErrors]
    · rw [hworker]
      simp only [Worker.work, Checking.set]
      omega
  | send hworker =>
    refine ⟨h.stream, ended_update h (by rintro ⟨⟩), reports_of_move h rfl rfl (zero_add _).symm ?_,
      steps_of_move h rfl rfl ?_⟩
    · rw [hworker, ← singleton_add]
      simp [Worker.pending, add_comm]
    · rw [hworker]
      simp only [Worker.work, Checking.set]
      omega
  | finish hunsent hworker hfilter =>
    refine ⟨h.stream, ended_update h fun _ => hfilter,
      reports_of_move h rfl rfl (zero_add _).symm ?_, steps_of_move h rfl rfl ?_⟩
    · rw [hworker]
      simp [Worker.pending, Checking.set]
    · rw [hworker]
      simp only [Worker.work, Checking.set]
      omega

def CheckRun (c : Config) (trees : List ID) (errs : List Bytes) (n : Nat) (s : Checking) : Prop :=
  ReachesIn (checkStep c) (fun s e => Loads c (.checking s) (.check e))
    (startChecking trees errs) n s

theorem CheckRun.sound (h : CheckRun c trees errs n s) : Sound c trees errs n s :=
  h.invariant (checkStep c) sound_start fun _ _ _ _ hs hload hstep => hs.next hload (.of_step hstep)

end Reports

end Rapi.Checker.Structure
