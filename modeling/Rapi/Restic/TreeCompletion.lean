import Rapi.Restic.TreeDelivery

/-!
# Streaming ends, and counts each root once

A weight of what is still to be done falls with every step, except for the
trees that the step adds to the backlog; so a run is bounded by the number of
trees it adds.  `Counted` ties the counter of each root to the trees below it
that are not done: the counter reaches zero once, and that is when `p.Add(1)`
is called.
-/

namespace Rapi.Restic.TreeStream

open Foundation List Function

variable {γ : Type} {c : Config γ} {trees : List ID} {s t : State γ} {e : Event}

def Loader.weight : Loader → Nat
  | .waiting => 1
  | .loading _ => 5
  | .sending _ _ => 4
  | .ended => 0

def Consumer.weight : Consumer → Nat
  | .reading => 1
  | .processing _ => 2
  | .finished => 0
  | .failed _ => 0

def Filter.weight : Filter → Nat
  | .running => 1
  | _ => 0

def loadersWeight (loaders : Fin streamTreeParallelism → Loader) : Nat := ∑ i, (loaders i).weight

def weight (s : State γ) : Nat :=
  7 * s.backlog.length + 6 * s.nextTreeID.toList.length +
    5 * s.hugeTreeChan.length + loadersWeight s.loaders +
    2 * s.job.toList.length + s.consumer.weight + s.filter.weight +
    (!s.loadedTreeChanClosed).toNat + s.inOpen.toNat + (!s.cancelled).toNat

private theorem loadersWeight_update {loaders : Fin streamTreeParallelism → Loader}
    {i : Fin streamTreeParallelism} {loader : Loader} (hloader : loaders i = loader)
    (loader' : Loader) : loadersWeight (update loaders i loader') + loader.weight =
      loadersWeight loaders + loader'.weight := by
  have hold := sum_slot Loader.weight loaders i
  have hnew := sum_update_slot Loader.weight loaders i loader'
  rw [hloader] at hold
  rw [loadersWeight, loadersWeight, hold, hnew]
  omega

theorem weight_step (hstep : Step c s e t) :
    weight t + 1 + 7 * s.past.pushed.card ≤ weight s + 7 * t.past.pushed.card := by
  cases hstep with
  | skip hrun hnext hbacklog hskip =>
    simp only [weight, skipTree, hbacklog, length_cons]
    omega
  | accept hrun hnext hbacklog hskip =>
    simp only [weight, acceptTree, hbacklog, hnext, length_cons,
      Option.toList_none, Option.toList_some, length_nil]
    omega
  | @send i treeID hselect hnext hloader hi hhuge =>
    have hloaders := loadersWeight_update hloader (.loading treeID)
    simp only [Loader.weight] at hloaders
    simp only [weight, sendTree, hnext, Option.toList_none,
      Option.toList_some, length_cons, length_nil]
    omega
  | sendHuge hselect hnext hhuge hroom =>
    simp only [weight, sendHugeTree, hnext, length_append,
      Option.toList_none, Option.toList_some, length_cons, length_nil]
    omega
  | @takeHuge treeID rest hloader hchan =>
    have hloaders := loadersWeight_update hloader (.loading treeID)
    simp only [Loader.weight] at hloaders
    simp only [weight, takeHugeTree, hchan, length_cons]
    omega
  | @load i treeID result hloader =>
    have hloaders := loadersWeight_update hloader (.sending treeID result)
    simp only [Loader.weight] at hloaders
    simp only [weight, loadTree]
    omega
  | @receive i treeID result hselect hjob hopen hloader =>
    have hloaders := loadersWeight_update hloader .waiting
    simp only [Loader.weight] at hloaders
    simp only [weight, receiveTree, hjob, Option.toList_none,
      Option.toList_some, length_cons, length_nil,
      length_append, Multiset.card_add, Multiset.coe_card]
    omega
  | receiveClosed hselect hjob hopen hclosed =>
    simp only [weight, hopen, Bool.toNat_true, Bool.toNat_false]
    omega
  | deliver hselect hjob hconsumer =>
    simp only [weight, deliverTree, hjob, hconsumer, Consumer.weight,
      Option.toList_none, Option.toList_some, length_cons, length_nil]
    omega
  | consume hconsumer hconsume | endConsumer hconsumer hfilter =>
    simp only [weight, hconsumer, Consumer.weight]
    omega
  | fail hconsumer hconsume =>
    simp only [weight, hconsumer, Consumer.weight, Bool.not_true, Bool.toNat_false]
    omega
  | finish hrun hexit =>
    simp only [weight, hrun, Filter.weight]
    omega
  | abort hselect hcancelled =>
    simp only [weight, hselect.1, Filter.weight]
    omega
  | @giveUp i treeID result hloader hcancelled =>
    have hloaders := loadersWeight_update hloader .ended
    simp only [Loader.weight] at hloaders
    simp only [weight, giveUpTree]
    omega
  | @endLoader i hloader hfilter hchan =>
    have hloaders := loadersWeight_update hloader .ended
    simp only [Loader.weight] at hloaders
    simp only [weight]
    omega
  | closeLoaded hended hclosed =>
    simp only [weight, hclosed, Bool.not_true, Bool.not_false, Bool.toNat_true, Bool.toNat_false]
    omega
  | cancel hcancelled =>
    simp only [weight, hcancelled, Bool.not_true, Bool.not_false, Bool.toNat_true, Bool.toNat_false]
    omega

theorem weight_start (client : γ) :
    weight (start trees client) = 7 * (start trees client).past.pushed.card + 11 := by
  simp [weight, start, loadersWeight, Loader.weight, Consumer.weight, Filter.weight]


variable {client : γ} {treeID : TrackedID}

theorem length_le {allowed : State γ → Event → Prop} {n : Nat}
    (hreach : ReachesIn (step c) allowed (start trees client) n s) :
    n + weight s ≤ 7 * s.past.pushed.card + 11 := by
  refine ReachesIn.invariant (step c) (P := fun n s =>
    n + weight s ≤ 7 * s.past.pushed.card + 11) hreach ?_ ?_
  · rw [weight_start]
    omega
  · intro n s e t hle _ hstep
    have := weight_step (.of_step hstep)
    omega

def below (idx : Nat) (trees : Multiset TrackedID) : Nat :=
  trees.countP fun tree => tree.rootIdx = idx

theorem below_add (idx : Nat) (first second : Multiset TrackedID) :
    below idx (first + second) = below idx first + below idx second := Multiset.countP_add _ _ _

theorem below_cons (idx : Nat) (treeID : TrackedID) (trees : Multiset TrackedID) :
    below idx (treeID ::ₘ trees) = below idx trees + if treeID.rootIdx = idx then 1 else 0 :=
  Multiset.countP_cons _ _ _

theorem below_pos {trees : Multiset TrackedID} (h : treeID ∈ trees) :
    0 < below treeID.rootIdx trees := Multiset.countP_pos.2 ⟨treeID, h, rfl⟩

theorem rootIdx_of_mem_pushedBy {tree : TrackedID} {result : LoadResult}
    (h : tree ∈ pushedBy treeID result) : tree.rootIdx = treeID.rootIdx := by
  rcases result with _ | _ | loaded
  · simp [pushedBy] at h
  · simp [pushedBy] at h
  · simp only [pushedBy, mem_map] at h
    obtain ⟨id, -, rfl⟩ := h
    rfl

theorem below_pushedBy (idx : Nat) (treeID : TrackedID) (result : LoadResult) :
    below idx (pushedBy treeID result) =
      if treeID.rootIdx = idx then (pushedBy treeID result).length else 0 := by
  split
  · next hidx =>
      refine Multiset.countP_eq_card.2 fun tree htree => ?_
      rw [rootIdx_of_mem_pushedBy (Multiset.mem_coe.1 htree), hidx]
  · next hidx =>
      refine Multiset.countP_eq_zero.2 fun tree htree => ?_
      rw [rootIdx_of_mem_pushedBy (Multiset.mem_coe.1 htree)]
      exact hidx

theorem below_trackedRoots (idx : Nat) (trees : List ID) :
    below idx (trackedRoots trees) = if idx < trees.length then 1 else 0 := by
  have hroots : (trackedRoots trees).map TrackedID.rootIdx = range trees.length := by
    simp only [trackedRoots, map_map, range_eq_range']
    exact zipIdx_map_snd 0 trees
  have hcount : below idx (trackedRoots trees) =
      ((trackedRoots trees).map TrackedID.rootIdx).count idx := by
    rw [below, Multiset.coe_countP, List.count, List.countP_map]
    congr 1
  rw [hcount, hroots, List.nodup_range.count]
  simp

structure Counted (c : Config γ) (trees : List ID) (s : State γ) : Prop where
  roots : ∀ tree ∈ s.past.pushed, tree.rootIdx < trees.length
  counter : ∀ idx, s.rootCounter idx + below idx s.past.skipped +
    below idx (s.past.received.map Prod.fst) = below idx s.past.pushed
  progress : c.hasCounter → ∀ idx < trees.length,
    s.past.progress.count idx = if s.rootCounter idx = 0 then 1 else 0
  within : ∀ idx ∈ s.past.progress, idx < trees.length

theorem counted_start (client : γ) : Counted c trees (start trees client) where
  roots := by
    intro tree htree
    simp only [start, trackedRoots, Multiset.mem_coe, mem_map] at htree
    obtain ⟨⟨id, idx⟩, hmem, rfl⟩ := htree
    exact snd_lt_of_mem_zipIdx hmem
  counter := by
    intro idx
    simp only [start, below_trackedRoots]
    split <;> simp [below]
  progress := by
    intro _ idx hidx
    simp [start, hidx]
  within := by simp [start]

def State.unfinished (s : State γ) : Multiset TrackedID :=
  s.backlog + s.nextTreeID.toList + s.hugeTreeChan + loading s.loaders +
    (sending s.loaders + s.past.dropped).map Prod.fst

theorem Balance.pushed_eq (h : Balance trees s) :
    s.past.pushed = s.past.skipped + s.past.received.map Prod.fst + s.unfinished := by
  rw [h.popped, h.accepted, h.returned, State.unfinished, Multiset.map_add]
  abel

theorem Counted.counter_eq (h : Counted c trees s) (hb : Balance trees s)
    (idx : Nat) : s.rootCounter idx = below idx s.unfinished := by
  have hcounter := h.counter idx
  rw [hb.pushed_eq, below_add, below_add] at hcounter
  push_cast at hcounter
  omega

private theorem Counted.counter_pos (h : Counted c trees s) (hb : Balance trees s)
    (hopen : treeID ∈ s.unfinished) : 0 < s.rootCounter treeID.rootIdx := by
  rw [h.counter_eq hb]
  exact_mod_cast below_pos hopen

private theorem Counted.progress_update (h : Counted c trees s) {idx : Nat}
    (hpos : 0 < s.rootCounter idx) (counter : Int)
    (hc : c.hasCounter) (other : Nat) (hother : other < trees.length) :
    (count c idx counter s.past.progress).count other =
      if update s.rootCounter idx counter other = 0 then 1 else 0 := by
  have hold := h.progress hc other hother
  by_cases heq : other = idx
  · subst heq
    rw [if_neg hpos.ne'] at hold
    rw [update_self, count]
    split <;> simp_all
  · rw [update_of_ne heq, ← hold, count]
    split
    · exact Multiset.count_cons_of_ne heq _
    · rfl

private theorem Counted.within_count (h : Counted c trees s) {idx : Nat} (hidx : idx < trees.length)
    (counter : Int) : ∀ other ∈ count c idx counter s.past.progress, other < trees.length := by
  intro other hother
  rw [count] at hother
  split at hother
  · rcases Multiset.mem_cons.1 hother with rfl | hother
    · exact hidx
    · exact h.within other hother
  · exact h.within other hother

theorem Counted.step (h : Counted c trees s) (hb : Balance trees s)
    (hstep : Step c s e t) : Counted c trees t := by
  have hroot : ∀ treeID ∈ s.unfinished, treeID.rootIdx < trees.length := by
    intro treeID htree
    apply h.roots
    rw [hb.pushed_eq]
    exact Multiset.mem_add.2 (.inr htree)
  cases hstep with
  | @skip treeID backlog client hrun hnext hbacklog hskip =>
    have hopen : treeID ∈ s.unfinished := by simp [State.unfinished, hbacklog]
    refine ⟨h.roots, ?_, h.progress_update (h.counter_pos hb hopen) _,
      h.within_count (hroot _ hopen) _⟩
    intro idx
    have hcounter := h.counter idx
    by_cases hidx : idx = treeID.rootIdx
    · subst hidx
      simp only [skipTree, below_cons, update_self, if_true]
      push_cast
      omega
    · simp only [skipTree, below_cons, update_of_ne hidx, if_neg (Ne.symm hidx)]
      exact hcounter
  | @receive i treeID result hselect hjob hopen hloader =>
    have hopen : treeID ∈ s.unfinished := by
      obtain ⟨others, others', hloading, hsending, -⟩ := loaders_split hloader
      simp [State.unfinished, hsending]
    refine ⟨?_, ?_, h.progress_update (h.counter_pos hb hopen) _, h.within_count (hroot _ hopen) _⟩
    · intro tree htree
      rcases Multiset.mem_add.1 htree with htree | htree
      · exact h.roots tree htree
      · rw [rootIdx_of_mem_pushedBy (Multiset.mem_coe.1 htree)]
        exact hroot _ hopen
    · intro idx
      have hcounter := h.counter idx
      simp only [receiveTree, Multiset.map_cons, below_cons, below_add, below_pushedBy]
      by_cases hidx : idx = treeID.rootIdx
      · subst hidx
        simp only [update_self, if_true]
        push_cast
        omega
      · simp only [update_of_ne hidx, if_neg (Ne.symm hidx)]
        exact hcounter
  | accept | send | sendHuge | takeHuge | load | receiveClosed | deliver
  | consume | fail | finish | abort | giveUp | endLoader | closeLoaded
  | endConsumer | cancel => exact { h with }

structure Invariant (c : Config γ) (trees : List ID) (s : State γ) : Prop where
  balance : Balance trees s
  phases : Phases s
  counted : Counted c trees s

theorem invariant_of_reaches {allowed : State γ → Event → Prop}
    (hreach : Reaches (step c) allowed (start trees client) s) : Invariant c trees s := by
  refine hreach.invariant (step c)
    ⟨balance_start client, phases_start client, counted_start client⟩ ?_
  intro s e t h _ hstep
  have hstep := Step.of_step hstep
  exact ⟨h.balance.step hstep, h.phases.step hstep, h.counted.step h.balance hstep⟩

/-- Nothing is in the backlog, in flight or undelivered. -/
structure State.Drained (s : State γ) : Prop where
  backlog : s.backlog = []
  nextTreeID : s.nextTreeID = none
  job : s.job = none
  hugeTreeChan : s.hugeTreeChan = []
  loading : loading s.loaders = 0
  sending : sending s.loaders = 0
  dropped : s.past.dropped = 0

theorem Invariant.drained (h : Invariant c trees s)
    (hfilter : s.filter = .drained) : s.Drained := by
  obtain ⟨hnext, hbacklog, hjob, hidle⟩ := h.phases.drained hfilter
  have houtstanding := h.balance.outstanding
  rw [hidle] at houtstanding
  constructor
  · simpa using hbacklog
  · simpa using hnext
  · simpa using hjob
  · exact eq_nil_of_length_eq_zero (by omega)
  · exact Multiset.card_eq_zero.1 (by omega)
  · exact Multiset.card_eq_zero.1 (by omega)
  · exact Multiset.card_eq_zero.1 (by omega)

section Completed

variable (h : Invariant c trees s) (hdrained : s.Drained)

include h hdrained

theorem Invariant.pushed_of_drained : s.past.pushed = s.past.skipped + s.past.accepted := by
  rw [h.balance.popped, hdrained.backlog, Multiset.coe_nil, add_zero]

theorem Invariant.received_of_drained : s.past.received = s.past.returned := by
  rw [h.balance.returned, hdrained.sending, hdrained.dropped, zero_add, zero_add]

theorem Invariant.accepted_of_drained : s.past.accepted = s.past.returned.map Prod.fst := by
  rw [h.balance.accepted, hdrained.nextTreeID, hdrained.hugeTreeChan, hdrained.loading]
  simp

theorem Invariant.delivered_of_drained :
    s.past.delivered = s.past.returned.map fun tree => treeItem tree.1 tree.2 := by
  rw [← h.received_of_drained hdrained, h.balance.received, hdrained.job]
  simp

theorem Invariant.progress_of_drained (hc : c.hasCounter) :
    s.past.progress = Multiset.range trees.length := by
  have hcounter : ∀ idx, s.rootCounter idx = 0 := by
    intro idx
    rw [h.counted.counter_eq h.balance, State.unfinished, hdrained.backlog,
      hdrained.nextTreeID, hdrained.hugeTreeChan, hdrained.loading,
      hdrained.sending, hdrained.dropped]
    simp [below]
  ext idx
  by_cases hidx : idx < trees.length
  · rw [h.counted.progress hc idx hidx, if_pos (hcounter idx),
      Multiset.count_eq_one_of_mem (Multiset.nodup_range _) (Multiset.mem_range.2 hidx)]
  · rw [Multiset.count_eq_zero_of_notMem fun hmem =>
        hidx (h.counted.within idx hmem),
      Multiset.count_eq_zero_of_notMem fun hmem => hidx (Multiset.mem_range.1 hmem)]

end Completed

private theorem not_cancelled
    (hreads : ∀ client item, ∃ client', c.consume client item = .ok client')
    (hreach : Reaches (step c) (fun _ e => e ≠ .cancel) (start trees client) s) :
    s.cancelled = false := by
  refine hreach.invariant (step c) (P := fun s => s.cancelled = false) rfl ?_
  intro s e t hcancelled hallowed hstep
  cases Step.of_step hstep with
  | @fail item error hconsumer hconsume =>
    obtain ⟨client', hok⟩ := hreads s.client item
    simp [hok] at hconsume
  | cancel => exact absurd rfl hallowed
  | skip | accept | send | sendHuge | takeHuge | load | receive
  | receiveClosed | deliver | consume | finish | abort | giveUp | endLoader
  | closeLoaded | endConsumer => exact hcancelled

/--
`StreamTrees` with a consumer that reads until the channel is closed: a run is
bounded by the trees it adds to the backlog and can go on until all goroutines
have ended; by then `skip` was called once for each of these trees, and those
it did not skip were loaded and delivered once each.
-/
theorem streamTrees_delivers_once (c : Config γ) (trees : List ID) (client : γ)
    (hreads : ∀ client item, ∃ client', c.consume client item = .ok client')
    {n : Nat} {s : State γ}
    (hreach : ReachesIn (step c) (fun _ e => e ≠ .cancel) (start trees client) n s) :
    n ≤ 7 * s.past.pushed.card + 11 ∧
    (¬ s.Ended → ∀ load, ∃ e t, e ≠ .cancel ∧ LoadsBy load s e ∧ step c s e = some t) ∧
    s.past.pushed = s.past.skipped + s.past.accepted + s.backlog ∧
    (s.filter ≠ .running → s.Drained) ∧
    (s.Ended →
      s.past.pushed = s.past.skipped + s.past.accepted ∧
      s.past.accepted = s.past.returned.map Prod.fst ∧
      s.past.delivered = s.past.returned.map (fun tree => treeItem tree.1 tree.2) ∧
      (c.hasCounter → s.past.progress = Multiset.range trees.length)) := by
  have hinv := invariant_of_reaches hreach.reaches
  have hcancelled := not_cancelled hreads hreach.reaches
  have hdrained : s.filter ≠ .running → s.Drained := by
    intro hfilter
    cases hphase : s.filter with
    | running => exact absurd hphase hfilter
    | drained => exact hinv.drained hphase
    | aborted => simp [hinv.phases.aborted hphase] at hcancelled
  refine ⟨?_, ?_, hinv.balance.popped, hdrained, ?_⟩
  · have := length_le hreach
    omega
  · intro hrun load
    exact (canMove load hinv.balance hinv.phases hrun).exists_step
  · intro hended
    have hdone := hdrained hended.1
    exact ⟨hinv.pushed_of_drained hdone, hinv.accepted_of_drained hdone,
      hinv.delivered_of_drained hdone, hinv.progress_of_drained hdone⟩

def sampleShutdown : List Event :=
  [.endLoader 0, .endLoader 1, .endLoader 2, .endLoader 3, .endLoader 4,
    .endLoader 5, .closeLoaded, .endConsumer]

/-- The third tree is a huge one, and the fourth is skipped. -/
def sampleConfig : Config Unit where
  lookupBlobSize id := if id = ID.ofNat 3 then some (60 * 1024 * 1024) else none
  skip _ id := (id = ID.ofNat 4, ())
  consume _ _ := .ok ()
  hasCounter := true

/-- Two roots, of which the first has the other two trees below it. -/
def sampleEvents : List Event :=
  [.pop, .send 1, .pop, .send 2, .load 2 (.ok (some ⟨[]⟩)),
    .load 1 (.ok (some ⟨[sampleDir [97] (.ofNat 3), sampleDir [98] (.ofNat 4)]⟩)),
    .receive 1, .pop, .sendHuge, .pop, .deliver, .consume, .takeHuge, .load 0 (.ok (some ⟨[]⟩)), .receive 0,
    .deliver, .consume, .receive 2, .deliver, .consume, .finish] ++ sampleShutdown

theorem streamTrees_delivers_once_sample :
    ∃ s, run (step sampleConfig) (start [ID.ofNat 1, ID.ofNat 2] ()) sampleEvents =
        some s ∧ s.Ended ∧ s.past.skipped.card = 1 ∧ s.past.returned.card = 3 ∧
      s.past.delivered = s.past.returned.map (fun tree => treeItem tree.1 tree.2) ∧
      s.past.progress = Multiset.range 2 := by
  obtain ⟨s, hrun⟩ := Option.isSome_iff_exists.1
    (show (run (step sampleConfig) (start [ID.ofNat 1, ID.ofNat 2] ())
      sampleEvents).isSome by decide)
  have hreach : ReachesIn (step sampleConfig) (fun _ e => e ≠ .cancel)
      (start [ID.ofNat 1, ID.ofNat 2] ()) 29 s :=
    reachesIn_of_run _ .refl (by simp [sampleEvents, sampleShutdown]) hrun
  have hcheck : (run (step sampleConfig) (start [ID.ofNat 1, ID.ofNat 2] ())
      sampleEvents).all (fun s => s.Ended ∧ s.past.skipped.card = 1 ∧
        s.past.returned.card = 3) := by
    decide
  rw [hrun, Option.all_some, decide_eq_true_iff] at hcheck
  obtain ⟨hended, hskipped, hreturned⟩ := hcheck
  obtain ⟨-, -, -, -, hdone⟩ := streamTrees_delivers_once sampleConfig
    [ID.ofNat 1, ID.ofNat 2] () (fun _ _ => ⟨(), rfl⟩) hreach
  obtain ⟨-, -, hdelivered, hprogress⟩ := hdone hended
  exact ⟨s, hrun, hended, hskipped, hreturned, hdelivered, hprogress rfl⟩

end Rapi.Restic.TreeStream
