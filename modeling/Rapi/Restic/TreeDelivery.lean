import Rapi.Foundation.Slots
import Rapi.Restic.TreeStream

/-!
# Every tree is loaded and delivered once

Two invariants carry the argument.  `Balance` says where each tree is that was
ever added to the backlog: still there, skipped, on its way through the
loaders, given up or delivered.  `Phases` says which goroutines may have ended.
Together they show that some goroutine can always move until all have ended.
-/

namespace Rapi.Restic.TreeStream

open Foundation Multiset Option Function

variable {γ : Type} {c : Config γ} {trees : List ID} {s t : State γ} {e : Event}

@[simp] def Loader.loadingIDs : Loader → Multiset TrackedID
  | .loading treeID => {treeID}
  | _ => 0

@[simp] def Loader.sendingTrees : Loader → Multiset (TrackedID × LoadResult)
  | .sending treeID result => {(treeID, result)}
  | _ => 0

def loading (loaders : Fin streamTreeParallelism → Loader) : Multiset TrackedID :=
  ∑ i, (loaders i).loadingIDs

def sending (loaders : Fin streamTreeParallelism → Loader) : Multiset (TrackedID × LoadResult) :=
  ∑ i, (loaders i).sendingTrees

theorem loaders_split {loaders : Fin streamTreeParallelism → Loader}
    {i : Fin streamTreeParallelism} {loader : Loader} (h : loaders i = loader) : ∃ others others',
      loading loaders = loader.loadingIDs + others ∧
      sending loaders = loader.sendingTrees + others' ∧
      (∀ loader, loading (update loaders i loader) = loader.loadingIDs + others) ∧
      ∀ loader, sending (update loaders i loader) = loader.sendingTrees + others' := by
  subst h
  exact ⟨_, _, sum_slot _ _ _, sum_slot _ _ _, sum_update_slot _ _ _, sum_update_slot _ _ _⟩

structure Balance (trees : List ID) (s : State γ) : Prop where
  pushed : s.past.pushed = (trackedRoots trees : Multiset TrackedID) +
    s.past.received.bind fun tree => (pushedBy tree.1 tree.2 : Multiset TrackedID)
  popped : s.past.pushed = s.past.skipped + s.past.accepted + s.backlog
  accepted : s.past.accepted = s.nextTreeID.toList + s.hugeTreeChan +
    loading s.loaders + s.past.returned.map Prod.fst
  returned : s.past.returned = sending s.loaders + s.past.dropped + s.past.received
  received : s.past.received.map (fun tree => treeItem tree.1 tree.2) =
    s.job.toList + s.past.delivered
  outstanding : s.outstandingLoadTreeJobs = s.hugeTreeChan.length +
    (loading s.loaders).card + (sending s.loaders).card + s.past.dropped.card

theorem balance_start (client : γ) : Balance trees (start trees client) where
  pushed := by simp [start]
  popped := by simp [start]
  accepted := by simp [start, loading]
  returned := by simp [start, sending]
  received := by simp [start]
  outstanding := by simp [start, loading, sending]

theorem Balance.step (h : Balance trees s) (hstep : Step c s e t) : Balance trees t := by
  cases hstep with
  | @skip treeID backlog client hrun hnext hbacklog hskip =>
    refine { h with popped := ?_ }
    simp only [skipTree, h.popped, hbacklog, ← cons_coe, ← singleton_add]
    abel
  | @accept treeID backlog client hrun hnext hbacklog hskip =>
    refine { h with popped := ?_, accepted := ?_ }
    · simp only [acceptTree, h.popped, hbacklog, ← cons_coe, ← singleton_add]
      abel
    · simp only [acceptTree, h.accepted, hnext, toList_none, toList_some, coe_nil, coe_singleton,
        ← singleton_add]
      abel
  | @send i treeID hselect hnext hloader hi hhuge =>
    obtain ⟨others, others', hloading, hsending, hl, hs⟩ := loaders_split hloader
    refine { h with accepted := ?_, returned := ?_, outstanding := ?_ }
    · simp only [sendTree, h.accepted, hnext, hloading, hl, toList_none, toList_some, coe_nil,
        coe_singleton, Loader.loadingIDs]
      abel
    · simp [sendTree, h.returned, hsending, hs]
    · simp [sendTree, h.outstanding, hloading, hsending, hl, hs]
      ring
  | @sendHuge treeID hselect hnext hhuge hroom =>
    refine { h with accepted := ?_, outstanding := ?_ }
    · simp only [sendHugeTree, h.accepted, hnext, ← coe_add, toList_none, toList_some, coe_nil,
        coe_singleton]
      abel
    · simp [sendHugeTree, h.outstanding]
      ring
  | @takeHuge treeID rest hloader hchan =>
    obtain ⟨others, others', hloading, hsending, hl, hs⟩ := loaders_split hloader
    refine { h with accepted := ?_, returned := ?_, outstanding := ?_ }
    · simp only [takeHugeTree, h.accepted, hchan, hloading, hl, ← cons_coe, ← singleton_add,
        Loader.loadingIDs]
      abel
    · simp [takeHugeTree, h.returned, hsending, hs]
    · simp [takeHugeTree, h.outstanding, hchan, hloading, hsending, hl, hs]
      ring
  | @load i treeID result hloader =>
    obtain ⟨others, others', hloading, hsending, hl, hs⟩ := loaders_split hloader
    refine { h with accepted := ?_, returned := ?_, outstanding := ?_ }
    · simp only [loadTree, h.accepted, hloading, hl]
      simp
    · simp [loadTree, h.returned, hsending, hs]
    · simp [loadTree, h.outstanding, hloading, hsending, hl, hs]
      ring
  | @receive i treeID result hselect hjob hopen hloader =>
    obtain ⟨others, others', hloading, hsending, hl, hs⟩ := loaders_split hloader
    constructor
    · simp [receiveTree, h.pushed]
      abel
    · simp only [receiveTree, h.popped, ← coe_add]
      abel
    · simp [receiveTree, h.accepted, hloading, hl]
    · simp [receiveTree, h.returned, hsending, hs]
    · simp [receiveTree, h.received, hjob]
    · simp [receiveTree, h.outstanding, hloading, hsending, hl, hs]
      ring
  | @deliver item hselect hjob hconsumer =>
    refine { h with received := ?_ }
    simp [deliverTree, h.received, hjob]
  | @giveUp i treeID result hloader hcancelled =>
    obtain ⟨others, others', hloading, hsending, hl, hs⟩ := loaders_split hloader
    refine { h with accepted := ?_, returned := ?_, outstanding := ?_ }
    · simp [giveUpTree, h.accepted, hloading, hl]
    · simp [giveUpTree, h.returned, hsending, hs]
    · simp [giveUpTree, h.outstanding, hloading, hsending, hl, hs]
      ring
  | @endLoader i hloader hfilter hchan =>
    obtain ⟨others, others', hloading, hsending, hl, hs⟩ := loaders_split hloader
    refine { h with accepted := ?_, returned := ?_, outstanding := ?_ }
    · simp [h.accepted, hloading, hl]
    · simp [h.returned, hsending, hs]
    · simp [h.outstanding, hloading, hsending, hl, hs]
  | receiveClosed | consume | fail | finish | abort | closeLoaded
  | endConsumer | cancel => exact { h with }

structure Phases (s : State γ) : Prop where
  drained : s.filter = .drained → s.AtExit
  aborted : s.filter = .aborted → s.cancelled
  dropped : s.past.dropped ≠ 0 → s.cancelled
  ended : ∀ i, s.loaders i = .ended → s.filter ≠ .running ∨ s.cancelled
  finished : s.consumer = .finished → s.filter ≠ .running
  failed : ∀ error, s.consumer = .failed error → s.cancelled
  closed : s.loadedTreeChanClosed → ∀ i, s.loaders i = .ended
  inOpen : s.inOpen = false → s.loadedTreeChanClosed

theorem phases_start (client : γ) : Phases (start trees client) := by constructor <;> simp [start]

theorem Loader.isEnded_iff {loader : Loader} : loader.isEnded ↔ loader = .ended := by
  cases loader <;> simp [Loader.isEnded]

private theorem Phases.closed_update (h : Phases s) {i : Fin streamTreeParallelism}
    (hi : s.loaders i ≠ .ended) (loader : Loader) (hclosed : s.loadedTreeChanClosed) :
    ∀ j, update s.loaders i loader j = .ended := absurd (h.closed hclosed i) hi

private theorem Phases.ended_update (h : Phases s) {i : Fin streamTreeParallelism} {loader : Loader}
    (hi : loader = .ended → s.filter ≠ .running ∨ s.cancelled) (j : Fin streamTreeParallelism)
    (hj : update s.loaders i loader j = .ended) : s.filter ≠ .running ∨ s.cancelled := by
  rw [update_apply] at hj
  split at hj
  · exact hi hj
  · exact h.ended j hj

theorem Phases.step (h : Phases s) (hstep : Step c s e t) : Phases t := by
  cases hstep with
  | skip hrun hnext hbacklog hskip =>
    exact { h with drained := fun hfilter => by simp_all [skipTree] }
  | accept hrun hnext hbacklog hskip =>
    exact { h with drained := fun hfilter => by simp_all [acceptTree] }
  | send hselect hnext hloader hi hhuge =>
    exact { h with
      drained := fun hfilter => by simp_all [sendTree, State.Selecting]
      ended := h.ended_update (by simp)
      closed := h.closed_update (by simp [hloader]) _ }
  | sendHuge hselect hnext hhuge hroom =>
    exact { h with
      drained := fun hfilter => by simp_all [sendHugeTree, State.Selecting] }
  | takeHuge hloader hchan | load hloader =>
    exact { h with
      ended := h.ended_update (by simp)
      closed := h.closed_update (by simp [hloader]) _ }
  | receive hselect hjob hopen hloader =>
    exact { h with
      drained := fun hfilter => by simp_all [receiveTree, State.Selecting]
      ended := h.ended_update (by simp)
      closed := h.closed_update (by simp [hloader]) _ }
  | receiveClosed hselect hjob hopen hclosed => exact { h with inOpen := fun _ => hclosed }
  | deliver hselect hjob hconsumer =>
    exact { h with
      drained := fun hfilter => by simp_all [deliverTree, State.Selecting]
      finished := by simp [deliverTree]
      failed := by simp [deliverTree] }
  | consume hconsumer hconsume => exact { h with finished := by simp, failed := by simp }
  | fail hconsumer hconsume =>
    exact { h with
      aborted := fun _ => rfl
      dropped := fun _ => rfl
      ended := fun _ _ => .inr rfl
      finished := by simp
      failed := fun _ _ => rfl }
  | finish hrun hexit =>
    exact { h with
      drained := fun _ => hexit
      aborted := by simp
      ended := fun _ _ => .inl (by simp)
      finished := by simp }
  | abort hselect hcancelled =>
    exact { h with
      drained := by simp
      aborted := fun _ => hcancelled
      ended := fun _ _ => .inr hcancelled
      finished := by simp }
  | giveUp hloader hcancelled =>
    exact { h with
      dropped := fun _ => hcancelled
      ended := h.ended_update fun _ => .inr hcancelled
      closed := h.closed_update (by simp [hloader]) _ }
  | endLoader hloader hfilter hchan =>
    exact { h with
      ended := h.ended_update fun _ => .inl hfilter
      closed := h.closed_update (by simp [hloader]) _ }
  | closeLoaded hended hclosed =>
    exact { h with
      closed := fun _ i => Loader.isEnded_iff.1 (hended i)
      inOpen := fun _ => rfl }
  | endConsumer hconsumer hfilter =>
    exact { h with finished := fun _ => hfilter, failed := by simp }
  | cancel hcancelled =>
    exact { h with
      aborted := fun _ => rfl
      dropped := fun _ => rfl
      ended := fun _ _ => .inr rfl
      failed := fun _ _ => rfl }

def Consumer.isEnded : Consumer → Bool
  | .finished => true
  | .failed _ => true
  | _ => false

def State.Ended (s : State γ) : Prop :=
  s.filter ≠ .running ∧ (∀ i, (s.loaders i).isEnded) ∧
    s.loadedTreeChanClosed ∧ s.consumer.isEnded

instance (s : State γ) : Decidable s.Ended := inferInstanceAs (Decidable (_ ∧ _ ∧ _ ∧ _))

/-- `LoadTree` answers by `load`, or with an error when it was cancelled. -/
def LoadsBy (load : ID → LoadResult) (s : State γ) : Event → Prop
  | .load i result => ∀ treeID, s.loaders i = .loading treeID →
      result = load treeID.id ∨ (s.cancelled ∧ result = .error ())
  | _ => True

def CanMove (c : Config γ) (load : ID → LoadResult) (s : State γ) : Prop :=
  ∃ e t, e ≠ .cancel ∧ LoadsBy load s e ∧ Step c s e t

theorem CanMove.exists_step {load : ID → LoadResult} (h : CanMove c load s) :
    ∃ e t, e ≠ .cancel ∧ LoadsBy load s e ∧ step c s e = some t := by
  obtain ⟨e, t, hcancel, hload, hstep⟩ := h
  exact ⟨e, t, hcancel, hload, hstep.step_eq⟩

section Progress

variable (load : ID → LoadResult)

private theorem canMove_of_loading {i : Fin streamTreeParallelism} {treeID : TrackedID}
    (hloader : s.loaders i = .loading treeID) : CanMove c load s := by
  refine ⟨.load i (load treeID.id), _, by simp, ?_, .load hloader⟩
  intro other hother
  rw [hloader] at hother
  cases hother
  exact .inl rfl

private theorem canMove_of_processing {item : TreeItem}
    (hconsumer : s.consumer = .processing item) : CanMove c load s := by
  cases hconsume : c.consume s.client item with
  | ok client => exact ⟨.consume, _, by simp, trivial, .consume hconsumer hconsume⟩
  | error error => exact ⟨.consume, _, by simp, trivial, .fail hconsumer hconsume⟩

private theorem canMove_of_backlog {treeID : TrackedID} {backlog : List TrackedID}
    (hrun : s.filter = .running) (hnext : s.nextTreeID = none)
    (hbacklog : s.backlog = treeID :: backlog) : CanMove c load s := by
  rcases hskip : c.skip s.client treeID.id with ⟨skipped, client⟩
  cases skipped with
  | false => exact ⟨.pop, _, by simp, trivial, .accept hrun hnext hbacklog hskip⟩
  | true => exact ⟨.pop, _, by simp, trivial, .skip hrun hnext hbacklog hskip⟩

private theorem canMove_of_waiting (hb : Balance trees s) (hp : Phases s) (hselect : s.Selecting)
    (hcancelled : s.cancelled = false) (hjob : s.job = none)
    (hwaiting : ∀ i, s.loaders i = .waiting) : CanMove c load s := by
  cases hchan : s.hugeTreeChan with
  | cons treeID rest => exact ⟨.takeHuge, _, by simp, trivial, .takeHuge (hwaiting 0) hchan⟩
  | nil =>
    cases hnext : s.nextTreeID with
    | some treeID =>
      cases hhuge : c.huge treeID.id with
      | true =>
        refine ⟨.sendHuge, _, by simp, trivial, .sendHuge hselect hnext hhuge ?_⟩
        simp [hchan, hugeTreeChanSize]
      | false =>
        exact ⟨.send 1, _, by simp, trivial, .send hselect hnext (hwaiting 1) (by decide) hhuge⟩
    | none =>
      have hdropped : s.past.dropped = 0 := by
        by_contra hdropped
        simp [hp.dropped hdropped] at hcancelled
      have hidle : s.outstandingLoadTreeJobs = 0 := by
        simp [hb.outstanding, hchan, hdropped, loading, sending, hwaiting]
      obtain ⟨-, hbacklog, hexit⟩ := hselect
      simp [State.AtExit, hnext, hjob, hidle] at hbacklog hexit
      exact absurd hbacklog hexit

private theorem canMove_of_selecting (hb : Balance trees s) (hp : Phases s)
    (hselect : s.Selecting) : CanMove c load s := by
  by_cases hcancelled : s.cancelled
  · exact ⟨.abort, _, by simp, trivial, .abort hselect hcancelled⟩
  rw [Bool.not_eq_true] at hcancelled
  have hended : ∀ i, s.loaders i ≠ .ended := by
    intro i hi
    rcases hp.ended i hi with hrun | hrun
    · exact hrun hselect.1
    · simp [hcancelled] at hrun
  cases hjob : s.job with
  | some item =>
    cases hconsumer : s.consumer with
    | reading => exact ⟨.deliver, _, by simp, trivial, .deliver hselect hjob hconsumer⟩
    | processing other => exact canMove_of_processing load hconsumer
    | finished => exact absurd hselect.1 (hp.finished hconsumer)
    | failed error => simp [hp.failed error hconsumer] at hcancelled
  | none =>
    have hopen : s.inOpen := by
      by_contra hopen
      exact hended 0 (hp.closed (hp.inOpen (by simpa using hopen)) 0)
    by_cases hwaiting : ∀ i, s.loaders i = .waiting
    · exact canMove_of_waiting load hb hp hselect hcancelled hjob hwaiting
    obtain ⟨i, hi⟩ := not_forall.1 hwaiting
    cases hloader : s.loaders i with
    | waiting => exact absurd hloader hi
    | loading treeID => exact canMove_of_loading load hloader
    | sending treeID result =>
      exact ⟨.receive i, _, by simp, trivial, .receive hselect hjob hopen hloader⟩
    | ended => exact absurd hloader (hended i)

private theorem canMove_of_returned (hb : Balance trees s) (hp : Phases s)
    (hfilter : s.filter ≠ .running) (hrun : ¬ s.Ended) : CanMove c load s := by
  by_cases hended : ∀ i, (s.loaders i).isEnded
  · cases hclosed : s.loadedTreeChanClosed with
    | false => exact ⟨.closeLoaded, _, by simp, trivial, .closeLoaded hended hclosed⟩
    | true =>
      cases hconsumer : s.consumer with
      | reading => exact ⟨.endConsumer, _, by simp, trivial, .endConsumer hconsumer hfilter⟩
      | processing item => exact canMove_of_processing load hconsumer
      | finished | failed error =>
        exact absurd ⟨hfilter, hended, hclosed, by simp [hconsumer, Consumer.isEnded]⟩ hrun
  obtain ⟨i, hi⟩ := not_forall.1 hended
  cases hloader : s.loaders i with
  | waiting =>
    by_cases hchan : i = 0 → s.hugeTreeChan = []
    · exact ⟨.endLoader i, _, by simp, trivial, .endLoader hloader hfilter hchan⟩
    · obtain ⟨rfl, hfull⟩ := Classical.not_imp.1 hchan
      obtain ⟨treeID, rest, hchan⟩ := List.exists_cons_of_ne_nil hfull
      exact ⟨.takeHuge, _, by simp, trivial, .takeHuge hloader hchan⟩
  | loading treeID => exact canMove_of_loading load hloader
  | sending treeID result =>
    -- only a cancelled filter leaves a loader with a tree in its hands
    have hcancelled : s.cancelled := by
      cases hphase : s.filter with
      | running => exact absurd hphase hfilter
      | aborted => exact hp.aborted hphase
      | drained =>
        obtain ⟨others, others', hloading, hsending, -⟩ := loaders_split hloader
        have hidle := (hp.drained hphase).2.2.2
        rw [hb.outstanding, hsending] at hidle
        simp at hidle
        omega
    exact ⟨.giveUp i, _, by simp, trivial, .giveUp hloader hcancelled⟩
  | ended => exact absurd (Loader.isEnded_iff.2 hloader) hi

theorem canMove (hb : Balance trees s) (hp : Phases s) (hrun : ¬ s.Ended) : CanMove c load s := by
  by_cases hfilter : s.filter = .running
  · by_cases hexit : s.AtExit
    · exact ⟨.finish, _, by simp, trivial, .finish hfilter hexit⟩
    cases hnext : s.nextTreeID with
    | some treeID =>
      refine canMove_of_selecting load hb hp ⟨hfilter, ?_, hexit⟩
      simp [hnext]
    | none =>
      cases hbacklog : s.backlog with
      | cons treeID backlog => exact canMove_of_backlog load hfilter hnext hbacklog
      | nil =>
        refine canMove_of_selecting load hb hp ⟨hfilter, ?_, hexit⟩
        simp [hbacklog]
  · exact canMove_of_returned load hb hp hfilter hrun

end Progress

end Rapi.Restic.TreeStream
