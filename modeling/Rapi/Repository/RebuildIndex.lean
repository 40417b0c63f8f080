import Rapi.Foundation.Slots
import Rapi.Pack.Reader
import Rapi.Repository.Merging

/-!
# Rebuilding the index from packs

`CreateIndexFromPacks` sends the packs to ten workers through an unbuffered
channel, so that sender and receiver move together.  A worker lists a pack,
notes it if it is invalid, and stores the entries in the new index; an invalid
pack is stored without entries.  Storing panics when an offset does not fit into
32 bits, and the program ends.  The context is not cancelled.
-/

namespace Rapi.Repository.Rebuild

open Foundation Crypto Restic Function List

def listPackParallelism : Nat := 10

structure FileInfo where
  id : ID
  size : Nat
  deriving DecidableEq

/-- The key of the repository and the content of its pack files. -/
structure Config where
  key : Key
  be : ID → Bytes

def Config.listPack (c : Config) (fi : FileInfo) : Except Pack.Error (List Blob × Nat) :=
  Pack.list c.key (c.be fi.id) fi.size

inductive Worker
  | waiting
  | listing (fi : FileInfo)
  | noting (fi : FileInfo)
  | storing (fi : FileInfo) (entries : List Blob)
  | ended

/-- `unsent` holds the packs in the order in which the map is iterated. -/
structure State where
  unsent : List FileInfo
  closed : Bool
  workers : Fin listPackParallelism → Worker
  invalid : List ID
  idx : Index
  panicked : Bool

def start (packs : List FileInfo) (idx : Index) : State where
  unsent := packs
  closed := false
  workers _ := .waiting
  invalid := []
  idx := idx
  panicked := false

inductive Event
  | send (i : Fin listPackParallelism)
  | list (i : Fin listPackParallelism)
  | note (i : Fin listPackParallelism)
  | store (i : Fin listPackParallelism)
  | close
  | finish (i : Fin listPackParallelism)

def State.set (s : State) (i : Fin listPackParallelism) (worker : Worker) : State :=
  { s with workers := update s.workers i worker }

@[simp] theorem State.workers_set (s : State) (i : Fin listPackParallelism) (worker : Worker) :
    (s.set i worker).workers = update s.workers i worker := rfl

def step (c : Config) (s : State) (e : Event) : Option State :=
  if s.panicked then none
  else
    match e with
    | .send i =>
      match s.unsent, s.workers i with
      | fi :: rest, .waiting => some { s.set i (.listing fi) with unsent := rest }
      | _, _ => none
    | .list i =>
      match s.workers i with
      | .listing fi =>
        match c.listPack fi with
        | .error _ => some (s.set i (.noting fi))
        | .ok (entries, _) => some (s.set i (.storing fi entries))
      | _ => none
    | .note i =>
      match s.workers i with
      | .noting fi =>
        some { s.set i (.storing fi []) with
          invalid := s.invalid ++ [fi.id] }
      | _ => none
    | .store i =>
      match s.workers i with
      | .storing fi entries =>
        match s.idx.storePack fi.id entries with
        | none => some { s with panicked := true }
        | some idx => some { s.set i .waiting with idx := idx }
      | _ => none
    | .close =>
      if s.unsent = [] ∧ s.closed = false then some { s with closed := true }
      else none
    | .finish i =>
      match s.workers i with
      | .waiting => if s.closed then some (s.set i .ended) else none
      | _ => none

structure State.Ended (s : State) : Prop where
  closed : s.closed
  workers : ∀ i, s.workers i = .ended
  panicked : s.panicked = false

/-- `CreateIndexFromPacks` adds the index to the master index in the end. -/
def State.result (s : State) (mi : MasterIndex) : List ID × MasterIndex :=
  (s.invalid, mi.insert s.idx)

/-! ## What a step does -/

section Steps

variable (c : Config)

inductive Step (s : State) : State → Prop
  | send {i : Fin listPackParallelism} {fi : FileInfo} {rest : List FileInfo}
      (hworker : s.workers i = .waiting) (hunsent : s.unsent = fi :: rest) :
      Step s { s.set i (.listing fi) with unsent := rest }
  | fail {i : Fin listPackParallelism} {fi : FileInfo} {err : Pack.Error}
      (hworker : s.workers i = .listing fi)
      (hlist : c.listPack fi = .error err) : Step s (s.set i (.noting fi))
  | list {i : Fin listPackParallelism} {fi : FileInfo} {entries : List Blob}
      {hdrSize : Nat} (hworker : s.workers i = .listing fi)
      (hlist : c.listPack fi = .ok (entries, hdrSize)) : Step s (s.set i (.storing fi entries))
  | note {i : Fin listPackParallelism} {fi : FileInfo} (hworker : s.workers i = .noting fi) :
      Step s { s.set i (.storing fi []) with invalid := s.invalid ++ [fi.id] }
  | store {i : Fin listPackParallelism} {fi : FileInfo} {entries : List Blob}
      {idx : Index} (hworker : s.workers i = .storing fi entries)
      (hstore : s.idx.storePack fi.id entries = some idx) :
      Step s { s.set i .waiting with idx := idx }
  | panic {i : Fin listPackParallelism} {fi : FileInfo} {entries : List Blob}
      (hworker : s.workers i = .storing fi entries)
      (hstore : s.idx.storePack fi.id entries = none) : Step s { s with panicked := true }
  | close (hunsent : s.unsent = []) (hclosed : s.closed = false) : Step s { s with closed := true }
  | finish {i : Fin listPackParallelism} (hworker : s.workers i = .waiting)
      (hclosed : s.closed) : Step s (s.set i .ended)

variable {c} {s t : State} {e : Event}

theorem Step.of_step (h : step c s e = some t) : Step c s t := by
  unfold step at h
  split at h
  · cases h
  cases e with
  | send i =>
    dsimp only at h
    split at h
    · cases h
      exact .send ‹_› ‹_›
    · cases h
  | list i =>
    dsimp only at h
    split at h
    · split at h
      · cases h
        exact .fail ‹_› ‹_›
      · cases h
        exact .list ‹_› ‹_›
    · cases h
  | note i =>
    dsimp only at h
    split at h
    · cases h
      exact .note ‹_›
    · cases h
  | store i =>
    dsimp only at h
    split at h
    · split at h
      · cases h
        exact .panic ‹_› ‹_›
      · cases h
        exact .store ‹_› ‹_›
    · cases h
  | close =>
    dsimp only at h
    split at h
    · cases h
      rename_i hclose
      exact .close hclose.1 hclose.2
    · cases h
  | finish i =>
    dsimp only at h
    split at h
    · split at h
      · cases h
        exact .finish ‹_› ‹_›
      · cases h
    · cases h

end Steps

/-! ## Where the entries are -/

section Accounting

variable (c : Config)

def Config.readable (fi : FileInfo) : Bool := (c.listPack fi).isOk

def Config.entries (fi : FileInfo) : List PackedBlob :=
  match c.listPack fi with
  | .error _ => []
  | .ok (entries, _) => entries.map (Index.packed fi.id)

/-- The entries that a pack adds to the index, and whether it is invalid. -/
def Config.weight (fi : FileInfo) : Multiset PackedBlob × Multiset ID :=
  (c.entries fi, if c.readable fi then 0 else {fi.id})

def Worker.weight : Worker → Multiset PackedBlob × Multiset ID
  | .waiting => 0
  | .listing fi => c.weight fi
  | .noting fi => (0, {fi.id})
  | .storing fi entries => ((entries.map (Index.packed fi.id) : List PackedBlob), 0)
  | .ended => 0

def State.total (s : State) : Multiset PackedBlob × Multiset ID :=
  (s.idx.content, (s.invalid : Multiset ID)) +
    (∑ i, (s.workers i).weight c + (s.unsent.map c.weight).sum)

variable {c} {s t : State}

theorem total_of_move {i : Fin listPackParallelism} {worker : Worker}
    (hworkers : t.workers = update s.workers i worker)
    (hmove : (t.idx.content, (t.invalid : Multiset ID)) +
        (worker.weight c + (t.unsent.map c.weight).sum) =
      (s.idx.content, (s.invalid : Multiset ID)) +
        ((s.workers i).weight c + (s.unsent.map c.weight).sum)) : t.total c = s.total c := by
  unfold State.total
  rw [hworkers, sum_update_slot (Worker.weight c), sum_slot (Worker.weight c) s.workers i]
  generalize ∑ j ∈ Finset.univ.erase i, (s.workers j).weight c = others
  rw [add_assoc, add_left_comm _ others, ← add_assoc, add_right_comm, hmove]
  abel

theorem weight_of_error {fi : FileInfo} {err : Pack.Error} (h : c.listPack fi = .error err) :
    (Worker.noting fi).weight c = c.weight fi := by
  simp [Worker.weight, Config.weight, Config.entries, Config.readable, h,
    Except.isOk, Except.toBool]

theorem weight_of_ok {fi : FileInfo} {entries : List Blob} {hdrSize : Nat}
    (h : c.listPack fi = .ok (entries, hdrSize)) :
    (Worker.storing fi entries).weight c = c.weight fi := by
  simp [Worker.weight, Config.weight, Config.entries, Config.readable, h,
    Except.isOk, Except.toBool]

theorem Step.total_eq (h : Step c s t) : t.total c = s.total c := by
  cases h with
  | send hworker hunsent =>
    refine total_of_move rfl ?_
    rw [hworker, hunsent, map_cons, sum_cons]
    simp [Worker.weight, State.set]
  | fail hworker hlist =>
    refine total_of_move rfl ?_
    rw [hworker, weight_of_error hlist]
    rfl
  | list hworker hlist =>
    refine total_of_move rfl ?_
    rw [hworker, weight_of_ok hlist]
    rfl
  | note hworker =>
    refine total_of_move rfl ?_
    rw [hworker, ← add_assoc, ← add_assoc]
    congr 1
    simp [Worker.weight, State.set, ← Multiset.coe_add]
  | store hworker hstore =>
    refine total_of_move rfl ?_
    rw [hworker, ← add_assoc, ← add_assoc]
    congr 1
    simp [Worker.weight, State.set, (Index.storePack_spec hstore).1, add_comm]
  | panic hworker hstore | close hunsent hclosed => rfl
  | finish hworker hclosed =>
    refine total_of_move rfl ?_
    rw [hworker]
    rfl

end Accounting

/-! ## Every run ends -/

section Runs

variable {c : Config} {s t : State} {e : Event}

def Worker.work : Worker → Nat
  | .waiting => 1
  | .listing _ => 4
  | .noting _ => 3
  | .storing _ _ => 2
  | .ended => 0

def State.work (s : State) : Nat :=
  (if s.closed then 0 else 1) + (∑ i, (s.workers i).work + 4 * s.unsent.length)

def Config.Fits (c : Config) (fi : FileInfo) : Prop :=
  ∀ entries hdrSize, c.listPack fi = .ok (entries, hdrSize) → ∀ b ∈ entries, b.offset < 2 ^ 32

def Worker.Sound (c : Config) (closed : Bool) : Worker → Prop
  | .waiting => True
  | .listing fi => c.Fits fi
  | .noting _ => True
  | .storing _ entries => ∀ b ∈ entries, b.offset ≤ Index.maxuint32 ∧ b.length ≤ Index.maxuint32
  | .ended => closed

structure Sound (c : Config) (s : State) : Prop where
  closed : s.closed → s.unsent = []
  notFinal : s.idx.final = false
  unsent : ∀ fi ∈ s.unsent, c.Fits fi
  workers : ∀ i, (s.workers i).Sound c s.closed
  running : s.panicked = false

theorem sound_update {workers : Fin listPackParallelism → Worker} {closed : Bool}
    (h : ∀ i, (workers i).Sound c closed) (i : Fin listPackParallelism) {worker : Worker}
    (hworker : worker.Sound c closed) : ∀ j, (update workers i worker j).Sound c closed := by
  intro j
  by_cases hj : j = i
  · subst hj
    rwa [update_self]
  · rw [update_of_ne hj]
    exact h j

theorem Config.Fits.bounds {fi : FileInfo} (h : c.Fits fi) {entries : List Blob} {hdrSize : Nat}
    (hlist : c.listPack fi = .ok (entries, hdrSize)) :
    ∀ b ∈ entries, b.offset ≤ Index.maxuint32 ∧ b.length ≤ Index.maxuint32 := by
  intro b hb
  have hoffset := h entries hdrSize hlist b hb
  have hlength := (Pack.list_spec hlist).2 b hb
  simp only [Index.maxuint32]
  omega

theorem Sound.next (h : Sound c s) (hstep : Step c s t) : Sound c t := by
  cases hstep with
  | @send i fi rest hworker hunsent =>
    obtain ⟨hfi, hrest⟩ := forall_mem_cons.mp (hunsent ▸ h.unsent)
    refine ⟨fun hclosed => ?_, h.notFinal, hrest, sound_update h.workers i hfi, h.running⟩
    rw [h.closed hclosed] at hunsent
    cases hunsent
  | @fail i fi err hworker hlist =>
    exact ⟨h.closed, h.notFinal, h.unsent, sound_update h.workers i trivial, h.running⟩
  | @list i fi entries hdrSize hworker hlist =>
    have hfits := h.workers i
    rw [hworker] at hfits
    exact ⟨h.closed, h.notFinal, h.unsent,
      sound_update h.workers i (Config.Fits.bounds hfits hlist), h.running⟩
  | @note i fi hworker =>
    exact ⟨h.closed, h.notFinal, h.unsent, sound_update h.workers i nofun, h.running⟩
  | @store i fi entries idx hworker hstore =>
    exact ⟨h.closed, (Index.storePack_spec hstore).2, h.unsent,
      sound_update h.workers i trivial, h.running⟩
  | @panic i fi entries hworker hstore =>
    -- the entries in the hand of the worker fit
    have hfits := h.workers i
    rw [hworker] at hfits
    obtain ⟨idx, hidx⟩ := Index.exists_storePack h.notFinal hfits fi.id
    rw [hidx] at hstore
    cases hstore
  | close hunsent hclosed =>
    refine ⟨fun _ => hunsent, h.notFinal, h.unsent, fun i => ?_, h.running⟩
    have hworker := h.workers i
    cases hw : s.workers i <;> simp_all [Worker.Sound]
  | @finish i hworker hclosed =>
    exact ⟨h.closed, h.notFinal, h.unsent, sound_update h.workers i hclosed, h.running⟩

theorem work_of_move {i : Fin listPackParallelism} {worker : Worker} (hclosed : t.closed = s.closed)
    (hworkers : t.workers = update s.workers i worker)
    (hmove : worker.work + 4 * t.unsent.length + 1 ≤
      (s.workers i).work + 4 * s.unsent.length) : t.work + 1 ≤ s.work := by
  unfold State.work
  rw [hclosed, hworkers, sum_update_slot Worker.work, sum_slot Worker.work s.workers i]
  omega

theorem Step.work_lt (hstep : Step c s t) (hs : Sound c s) : t.work + 1 ≤ s.work := by
  have ht := hs.next hstep
  cases hstep with
  | send hworker hunsent =>
    refine work_of_move rfl rfl ?_
    rw [hworker, hunsent]
    simp only [Worker.work, length_cons]
    omega
  | fail hworker hlist | list hworker hlist | note hworker
  | store hworker hstore | finish hworker hclosed =>
    refine work_of_move rfl rfl ?_
    rw [hworker]
    simp only [Worker.work, State.set]
    omega
  | panic hworker hstore => cases ht.running
  | close hunsent hclosed =>
    simp only [State.work, hclosed, if_true, Bool.false_eq_true, if_false]
    omega

theorem Sound.busy_moves (h : Sound c s) {i : Fin listPackParallelism}
    (hwaiting : s.workers i ≠ .waiting) (hended : s.workers i ≠ .ended) :
    ∃ e t, step c s e = some t := by
  cases hworker : s.workers i with
  | waiting => exact absurd hworker hwaiting
  | listing fi =>
    refine ⟨.list i, ?_⟩
    cases hlist : c.listPack fi with
    | error err | ok result => simp [step, h.running, hworker, hlist]
  | noting fi => exact ⟨.note i, by simp [step, h.running, hworker]⟩
  | storing fi entries =>
    refine ⟨.store i, ?_⟩
    cases hstore : s.idx.storePack fi.id entries with
    | none | some idx => simp [step, h.running, hworker, hstore]
  | ended => exact absurd hworker hended

theorem Sound.progress (h : Sound c s) (hended : ¬ s.Ended) : ∃ e t, step c s e = some t := by
  by_cases hbusy : ∃ i, s.workers i ≠ .waiting ∧ s.workers i ≠ .ended
  · obtain ⟨i, hwaiting, hnot⟩ := hbusy
    exact h.busy_moves hwaiting hnot
  have hidle : ∀ i, s.workers i ≠ .ended → s.workers i = .waiting := by
    intro i hi
    by_contra hwaiting
    exact hbusy ⟨i, hwaiting, hi⟩
  by_cases hclosed : s.closed
  · -- somebody has not seen yet that the channel is closed
    obtain ⟨i, hi⟩ : ∃ i, s.workers i ≠ .ended := by
      by_contra hall
      exact hended ⟨hclosed, by simpa using hall, h.running⟩
    exact ⟨.finish i, by simp [step, h.running, hidle i hi, hclosed]⟩
  · have hwaiting : ∀ i, s.workers i = .waiting := by
      intro i
      refine hidle i fun hi => hclosed ?_
      have hsound := h.workers i
      rwa [hi] at hsound
    cases hunsent : s.unsent with
    | nil => exact ⟨.close, by simp [step, h.running, hunsent, hclosed]⟩
    | cons fi rest => exact ⟨.send ⟨0, by decide⟩, by simp [step, h.running, hunsent, hwaiting]⟩

variable {packs : List FileInfo} {seed : BlobType → ID → Nat} {now n : Nat}

structure Reached (c : Config) (packs : List FileInfo) (n : Nat) (s : State) : Prop where
  sound : Sound c s
  total : s.total c = (packs.map c.weight).sum
  steps : n + s.work ≤ 4 * packs.length + 11

theorem reached_of_reachesIn (hfits : ∀ fi ∈ packs, c.Fits fi)
    (hreach : ReachesIn (step c) Anything (start packs (.new seed now)) n s) :
    Reached c packs n s := by
  refine hreach.invariant (step c) ?_ ?_
  · refine ⟨⟨nofun, rfl, hfits, fun _ => trivial, rfl⟩, ?_, ?_⟩
    · simp [State.total, start, Worker.weight]
    · have hworkers : ∑ _ : Fin listPackParallelism, 1 = 10 := by decide
      simp only [State.work, start, Worker.work, hworkers]
      simp
      omega
  · intro n s e t h _ hstep
    have hstep := Step.of_step hstep
    refine ⟨h.sound.next hstep, hstep.total_eq.trans h.total, ?_⟩
    have hwork := hstep.work_lt h.sound
    have hsteps := h.steps
    omega

theorem exists_run (hfits : ∀ fi ∈ packs, c.Fits fi) :
    ∃ n s, ReachesIn (step c) Anything (start packs (.new seed now)) n s ∧ s.Ended := by
  refine exists_ended (step c) (fun n s hreach =>
    (Nat.le_add_right _ _).trans (reached_of_reachesIn hfits hreach).steps) ?_
  intro n s hreach hended
  obtain ⟨e, t, hstep⟩ := (reached_of_reachesIn hfits hreach).sound.progress hended
  exact ⟨e, t, trivial, hstep⟩

theorem Reached.ended (h : Reached c packs n s) (hended : s.Ended) :
    s.idx.content = (packs.flatMap c.entries : List PackedBlob) ∧
      s.invalid.Perm ((packs.filter fun fi => !c.readable fi).map (·.id)) := by
  have htotal := h.total
  have hunsent := h.sound.closed hended.closed
  have hworkers : ∑ i, (s.workers i).weight c = 0 := by
    refine Finset.sum_eq_zero fun i _ => ?_
    rw [hended.workers i]
    rfl
  rw [State.total, hworkers, hunsent, map_nil, sum_nil, add_zero, add_zero] at htotal
  have hsum : (packs.map c.weight).sum = (↑(packs.flatMap c.entries),
        ↑((packs.filter fun fi => !c.readable fi).map (·.id))) := by
    clear h htotal
    induction packs with
    | nil => rfl
    | cons fi packs ih =>
      rw [map_cons, sum_cons, ih, Config.weight]
      cases hreadable : c.readable fi <;> simp [hreadable]
  rw [hsum, Prod.mk.injEq] at htotal
  exact ⟨htotal.1, Multiset.coe_eq_coe.mp htotal.2⟩

end Runs

end Rapi.Repository.Rebuild
