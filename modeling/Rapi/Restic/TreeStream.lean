import Rapi.Foundation.Transition
import Rapi.Restic.Node

/-!
# Streaming the trees of a snapshot

`StreamTrees` loads the given trees and their subtrees with six loaders and
sends each one to a consumer.  Between them stands the loop of `filterTrees`,
which keeps the backlog of trees to visit, asks `skip` about each of them and
switches its channels on and off.

Every event is one communication between goroutines or one action of one of
them, so that the runs of the system are all schedules.  `loaderChan`,
`loadedTreeChan` and `treeStream` are unbuffered: sender and receiver move
together.  `hugeTreeChan` has a buffer that only the first loader reads.  The
context is cancelled by the caller, or by an error of the consumer.  `skip` and
the consumer share a state `γ` of the client; `past` only records what has
happened.
-/

namespace Rapi.Restic

open Foundation Function

structure TrackedID where
  id : ID
  rootIdx : Nat
  deriving DecidableEq

inductive LoadError where
  | loadTree
  | treeIsNil
  deriving DecidableEq

/-- What `LoadTree` returns: an error, or a tree pointer that may be nil. -/
abbrev LoadResult := Except Unit (Option Tree)

structure TreeItem where
  id : ID
  result : Except LoadError Tree

namespace TreeStream

abbrev streamTreeParallelism : Nat := 6

instance neZero_streamTreeParallelism : NeZero streamTreeParallelism := ⟨by decide⟩

def hugeTreeChanSize : Nat := 10

structure Config (γ : Type) where
  lookupBlobSize : ID → Option Nat
  skip : γ → ID → Bool × γ
  consume : γ → TreeItem → Except LoadError γ
  hasCounter : Bool

def Config.huge {γ : Type} (c : Config γ) (id : ID) : Bool :=
  match c.lookupBlobSize id with
  | some treeSize => decide (50 * 1024 * 1024 < treeSize)
  | none => false

inductive Loader where
  | waiting
  | loading (treeID : TrackedID)
  | sending (treeID : TrackedID) (result : LoadResult)
  | ended

inductive Filter where
  | running
  | drained
  | aborted
  deriving DecidableEq

inductive Consumer where
  | reading
  | processing (item : TreeItem)
  | finished
  | failed (error : LoadError)

structure History where
  pushed : Multiset TrackedID
  skipped : Multiset TrackedID
  accepted : Multiset TrackedID
  returned : Multiset (TrackedID × LoadResult)
  dropped : Multiset (TrackedID × LoadResult)
  received : Multiset (TrackedID × LoadResult)
  delivered : Multiset TreeItem
  progress : Multiset Nat

/--
The variables of `filterTrees`, the other goroutines and the channels.
`nextTreeID` is there while `loadCh` is not nil, and `job` while `outCh` is not
nil; `inCh` is `in` exactly when there is no `job`, and `in` is nil unless
`inOpen`.  The head of `backlog` is the ID that was added last.
-/
structure State (γ : Type) where
  filter : Filter
  backlog : List TrackedID
  nextTreeID : Option TrackedID
  job : Option TreeItem
  inOpen : Bool
  outstandingLoadTreeJobs : Int
  rootCounter : Nat → Int
  hugeTreeChan : List TrackedID
  loaders : Fin streamTreeParallelism → Loader
  loadedTreeChanClosed : Bool
  consumer : Consumer
  cancelled : Bool
  client : γ
  past : History

inductive Event where
  | pop
  | send (i : Fin streamTreeParallelism)
  | sendHuge
  | takeHuge
  | load (i : Fin streamTreeParallelism) (result : LoadResult)
  | receive (i : Fin streamTreeParallelism)
  | receiveClosed
  | deliver
  | consume
  | finish
  | abort
  | giveUp (i : Fin streamTreeParallelism)
  | endLoader (i : Fin streamTreeParallelism)
  | closeLoaded
  | endConsumer
  | cancel

def trackedRoots (trees : List ID) : List TrackedID := trees.zipIdx.map fun tree => ⟨tree.1, tree.2⟩

def treeItem (treeID : TrackedID) : LoadResult → TreeItem
  | .error _ => ⟨treeID.id, .error .loadTree⟩
  | .ok none => ⟨treeID.id, .error .treeIsNil⟩
  | .ok (some tree) => ⟨treeID.id, .ok tree⟩

/-- The subtrees that `filterTrees` adds to the backlog for a loaded tree. -/
def pushedBy (treeID : TrackedID) : LoadResult → List TrackedID
  | .ok (some tree) =>
    (tree.subtrees.filter fun id => !id.isNull).map fun id => ⟨id, treeID.rootIdx⟩
  | _ => []

section Steps

variable {γ : Type} (c : Config γ)

def start (trees : List ID) (client : γ) : State γ where
  filter := .running
  backlog := (trackedRoots trees).reverse
  nextTreeID := none
  job := none
  inOpen := true
  outstandingLoadTreeJobs := 0
  rootCounter := fun idx => if idx < trees.length then 1 else 0
  hugeTreeChan := []
  loaders := fun _ => .waiting
  loadedTreeChanClosed := false
  consumer := .reading
  cancelled := false
  client := client
  past := ⟨trackedRoots trees, 0, 0, 0, 0, 0, 0, 0⟩

/-- `p.Add(1)` when the last tree below a root is done. -/
def count (idx : Nat) (counter : Int) (progress : Multiset Nat) : Multiset Nat :=
  if c.hasCounter ∧ counter = 0 then idx ::ₘ progress else progress

def skipTree (s : State γ) (treeID : TrackedID) (backlog : List TrackedID) (client : γ) : State γ :=
  let counter := s.rootCounter treeID.rootIdx - 1
  { s with
    backlog := backlog
    client := client
    rootCounter := update s.rootCounter treeID.rootIdx counter
    past := { s.past with
      skipped := treeID ::ₘ s.past.skipped
      progress := count c treeID.rootIdx counter s.past.progress } }

def acceptTree (s : State γ) (treeID : TrackedID) (backlog : List TrackedID)
    (client : γ) : State γ :=
  { s with
    backlog := backlog
    client := client
    nextTreeID := some treeID
    past := { s.past with accepted := treeID ::ₘ s.past.accepted } }

def sendTree (s : State γ) (i : Fin streamTreeParallelism) (treeID : TrackedID) : State γ :=
  { s with
    nextTreeID := none
    outstandingLoadTreeJobs := s.outstandingLoadTreeJobs + 1
    loaders := update s.loaders i (.loading treeID) }

def sendHugeTree (s : State γ) (treeID : TrackedID) : State γ :=
  { s with
    nextTreeID := none
    outstandingLoadTreeJobs := s.outstandingLoadTreeJobs + 1
    hugeTreeChan := s.hugeTreeChan ++ [treeID] }

def takeHugeTree (s : State γ) (treeID : TrackedID) (rest : List TrackedID) : State γ :=
  { s with
    hugeTreeChan := rest
    loaders := update s.loaders 0 (.loading treeID) }

def loadTree (s : State γ) (i : Fin streamTreeParallelism)
    (treeID : TrackedID) (result : LoadResult) : State γ :=
  { s with
    loaders := update s.loaders i (.sending treeID result)
    past := { s.past with
      returned := (treeID, result) ::ₘ s.past.returned } }

def receiveTree (s : State γ) (i : Fin streamTreeParallelism)
    (treeID : TrackedID) (result : LoadResult) : State γ :=
  let subtrees := pushedBy treeID result
  let counter := s.rootCounter treeID.rootIdx - 1 + subtrees.length
  { s with
    loaders := update s.loaders i .waiting
    outstandingLoadTreeJobs := s.outstandingLoadTreeJobs - 1
    backlog := subtrees ++ s.backlog
    rootCounter := update s.rootCounter treeID.rootIdx counter
    job := some (treeItem treeID result)
    past := { s.past with
      pushed := s.past.pushed + subtrees
      received := (treeID, result) ::ₘ s.past.received
      progress := count c treeID.rootIdx counter s.past.progress } }

def deliverTree (s : State γ) (item : TreeItem) : State γ :=
  { s with
    job := none
    consumer := .processing item
    past := { s.past with delivered := item ::ₘ s.past.delivered } }

def giveUpTree (s : State γ) (i : Fin streamTreeParallelism)
    (treeID : TrackedID) (result : LoadResult) : State γ :=
  { s with
    loaders := update s.loaders i .ended
    past := { s.past with
      dropped := (treeID, result) ::ₘ s.past.dropped } }

/-- The loop of `filterTrees` has nothing left to do. -/
def State.AtExit (s : State γ) : Prop :=
  s.nextTreeID.isNone ∧ s.backlog.isEmpty ∧ s.job.isNone ∧ s.outstandingLoadTreeJobs = 0

instance (s : State γ) : Decidable s.AtExit := inferInstanceAs (Decidable (_ ∧ _ ∧ _ ∧ _))

/-- The loop of `filterTrees` waits in its `select`. -/
def State.Selecting (s : State γ) : Prop :=
  s.filter = .running ∧ (s.nextTreeID.isSome ∨ s.backlog.isEmpty) ∧ ¬ s.AtExit

instance (s : State γ) : Decidable s.Selecting := inferInstanceAs (Decidable (_ ∧ _ ∧ _))

def Loader.isEnded : Loader → Bool
  | .ended => true
  | _ => false

def step (s : State γ) : Event → Option (State γ)
  | .pop =>
    match s.filter, s.nextTreeID, s.backlog with
    | .running, none, treeID :: backlog =>
      match c.skip s.client treeID.id with
      | (true, client) => some (skipTree c s treeID backlog client)
      | (false, client) => some (acceptTree s treeID backlog client)
    | _, _, _ => none
  | .send i =>
    match s.nextTreeID, s.loaders i with
    | some treeID, .waiting =>
      if s.Selecting ∧ i ≠ 0 ∧ c.huge treeID.id = false then some (sendTree s i treeID)
      else none
    | _, _ => none
  | .sendHuge =>
    match s.nextTreeID with
    | some treeID =>
      if s.Selecting ∧ c.huge treeID.id ∧
          s.hugeTreeChan.length < hugeTreeChanSize then
        some (sendHugeTree s treeID)
      else none
    | none => none
  | .takeHuge =>
    match s.loaders 0, s.hugeTreeChan with
    | .waiting, treeID :: rest => some (takeHugeTree s treeID rest)
    | _, _ => none
  | .load i result =>
    match s.loaders i with
    | .loading treeID => some (loadTree s i treeID result)
    | _ => none
  | .receive i =>
    match s.job, s.loaders i with
    | none, .sending treeID result =>
      if s.Selecting ∧ s.inOpen then some (receiveTree c s i treeID result)
      else none
    | _, _ => none
  | .receiveClosed =>
    if s.Selecting ∧ s.job.isNone ∧ s.inOpen ∧
        s.loadedTreeChanClosed then
      some { s with inOpen := false }
    else none
  | .deliver =>
    match s.job, s.consumer with
    | some item, .reading => if s.Selecting then some (deliverTree s item) else none
    | _, _ => none
  | .consume =>
    match s.consumer with
    | .processing item =>
      match c.consume s.client item with
      | .ok client => some { s with client := client, consumer := .reading }
      | .error error => some { s with consumer := .failed error, cancelled := true }
    | _ => none
  | .finish =>
    if s.filter = .running ∧ s.AtExit then some { s with filter := .drained }
    else none
  | .abort =>
    if s.Selecting ∧ s.cancelled then some { s with filter := .aborted }
    else none
  | .giveUp i =>
    match s.loaders i with
    | .sending treeID result =>
      if s.cancelled then some (giveUpTree s i treeID result)
      else none
    | _ => none
  | .endLoader i =>
    match s.loaders i with
    | .waiting =>
      if s.filter ≠ .running ∧ (i = 0 → s.hugeTreeChan = []) then
        some { s with loaders := update s.loaders i .ended }
      else none
    | _ => none
  | .closeLoaded =>
    if (∀ i, (s.loaders i).isEnded) ∧
        s.loadedTreeChanClosed = false then
      some { s with loadedTreeChanClosed := true }
    else none
  | .endConsumer =>
    match s.consumer with
    | .reading =>
      if s.filter ≠ .running then some { s with consumer := .finished }
      else none
    | _ => none
  | .cancel => if s.cancelled = false then some { s with cancelled := true } else none

/-- The steps of the system, one case for each thing that can happen. -/
inductive Step (s : State γ) : Event → State γ → Prop
  | skip {treeID : TrackedID} {backlog : List TrackedID} {client : γ} :
      s.filter = .running → s.nextTreeID = none → s.backlog = treeID :: backlog →
      c.skip s.client treeID.id = (true, client) → Step s .pop (skipTree c s treeID backlog client)
  | accept {treeID : TrackedID} {backlog : List TrackedID} {client : γ} :
      s.filter = .running → s.nextTreeID = none → s.backlog = treeID :: backlog →
      c.skip s.client treeID.id = (false, client) → Step s .pop (acceptTree s treeID backlog client)
  | send {i : Fin streamTreeParallelism} {treeID : TrackedID} :
      s.Selecting → s.nextTreeID = some treeID → s.loaders i = .waiting →
      i ≠ 0 → c.huge treeID.id = false → Step s (.send i) (sendTree s i treeID)
  | sendHuge {treeID : TrackedID} : s.Selecting → s.nextTreeID = some treeID →
      c.huge treeID.id → s.hugeTreeChan.length < hugeTreeChanSize →
      Step s .sendHuge (sendHugeTree s treeID)
  | takeHuge {treeID : TrackedID} {rest : List TrackedID} :
      s.loaders 0 = .waiting → s.hugeTreeChan = treeID :: rest →
      Step s .takeHuge (takeHugeTree s treeID rest)
  | load {i : Fin streamTreeParallelism} {treeID : TrackedID} {result : LoadResult} :
      s.loaders i = .loading treeID → Step s (.load i result) (loadTree s i treeID result)
  | receive {i : Fin streamTreeParallelism} {treeID : TrackedID} {result : LoadResult} :
      s.Selecting → s.job = none → s.inOpen → s.loaders i = .sending treeID result →
      Step s (.receive i) (receiveTree c s i treeID result)
  | receiveClosed : s.Selecting → s.job = none → s.inOpen → s.loadedTreeChanClosed →
      Step s .receiveClosed { s with inOpen := false }
  | deliver {item : TreeItem} : s.Selecting → s.job = some item → s.consumer = .reading →
      Step s .deliver (deliverTree s item)
  | consume {item : TreeItem} {client : γ} :
      s.consumer = .processing item → c.consume s.client item = .ok client →
      Step s .consume { s with client := client, consumer := .reading }
  | fail {item : TreeItem} {error : LoadError} : s.consumer = .processing item →
      c.consume s.client item = .error error →
      Step s .consume { s with consumer := .failed error, cancelled := true }
  | finish : s.filter = .running → s.AtExit → Step s .finish { s with filter := .drained }
  | abort : s.Selecting → s.cancelled → Step s .abort { s with filter := .aborted }
  | giveUp {i : Fin streamTreeParallelism} {treeID : TrackedID} {result : LoadResult} :
      s.loaders i = .sending treeID result → s.cancelled →
      Step s (.giveUp i) (giveUpTree s i treeID result)
  | endLoader {i : Fin streamTreeParallelism} : s.loaders i = .waiting → s.filter ≠ .running →
      (i = 0 → s.hugeTreeChan = []) →
      Step s (.endLoader i) { s with loaders := update s.loaders i .ended }
  | closeLoaded : (∀ i, (s.loaders i).isEnded) → s.loadedTreeChanClosed = false →
      Step s .closeLoaded { s with loadedTreeChanClosed := true }
  | endConsumer : s.consumer = .reading → s.filter ≠ .running →
      Step s .endConsumer { s with consumer := .finished }
  | cancel : s.cancelled = false → Step s .cancel { s with cancelled := true }

variable {c}

theorem Step.of_step {s : State γ} {e : Event} {t : State γ}
    (h : step c s e = some t) : Step c s e t := by
  cases e <;> simp only [step] at h
  case pop =>
      split at h
      · next hrun hnext hbacklog =>
          split at h
          · next hskip =>
              cases h
              exact .skip hrun hnext hbacklog hskip
          · next hskip =>
              cases h
              exact .accept hrun hnext hbacklog hskip
      · contradiction
  case send =>
      split at h
      · next hnext hloader =>
          obtain ⟨⟨hselect, hi, hhuge⟩, rfl⟩ := by simpa using h
          exact .send hselect hnext hloader hi hhuge
      · contradiction
  case sendHuge =>
      split at h
      · next hnext =>
          obtain ⟨⟨hselect, hhuge, hroom⟩, rfl⟩ := by simpa using h
          exact .sendHuge hselect hnext hhuge hroom
      · contradiction
  case takeHuge =>
      split at h
      · next hloader hchan =>
          cases h
          exact .takeHuge hloader hchan
      · contradiction
  case load =>
      split at h
      · next hloader =>
          cases h
          exact .load hloader
      · contradiction
  case receive =>
      split at h
      · next hjob hloader =>
          obtain ⟨⟨hselect, hopen⟩, rfl⟩ := by simpa using h
          exact .receive hselect hjob hopen hloader
      · contradiction
  case receiveClosed =>
      obtain ⟨⟨hselect, hjob, hopen, hclosed⟩, rfl⟩ := by simpa using h
      exact .receiveClosed hselect hjob hopen hclosed
  case deliver =>
      split at h
      · next hjob hconsumer =>
          obtain ⟨hselect, rfl⟩ := by simpa using h
          exact .deliver hselect hjob hconsumer
      · contradiction
  case consume =>
      split at h
      · next hconsumer =>
          split at h
          · next hconsume =>
              cases h
              exact .consume hconsumer hconsume
          · next hconsume =>
              cases h
              exact .fail hconsumer hconsume
      · contradiction
  case finish =>
      obtain ⟨⟨hrun, hexit⟩, rfl⟩ := by simpa using h
      exact .finish hrun hexit
  case abort =>
      obtain ⟨⟨hselect, hcancelled⟩, rfl⟩ := by simpa using h
      exact .abort hselect hcancelled
  case giveUp =>
      split at h
      · next hloader =>
          obtain ⟨hcancelled, rfl⟩ := by simpa using h
          exact .giveUp hloader hcancelled
      · contradiction
  case endLoader =>
      split at h
      · next hloader =>
          obtain ⟨⟨hfilter, hchan⟩, rfl⟩ := by simpa using h
          exact .endLoader hloader hfilter hchan
      · contradiction
  case closeLoaded =>
      obtain ⟨⟨hended, hclosed⟩, rfl⟩ := by simpa using h
      exact .closeLoaded hended hclosed
  case endConsumer =>
      split at h
      · next hconsumer =>
          obtain ⟨hfilter, rfl⟩ := by simpa using h
          exact .endConsumer hconsumer hfilter
      · contradiction
  case cancel =>
      obtain ⟨hcancelled, rfl⟩ := by simpa using h
      exact .cancel hcancelled

theorem Step.step_eq {s : State γ} {e : Event} {t : State γ}
    (h : Step c s e t) : step c s e = some t := by
  cases h <;> simp_all [step]

end Steps

end TreeStream

end Rapi.Restic
