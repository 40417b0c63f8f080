import Rapi.Foundation.Playback
import Rapi.Foundation.Store
import Rapi.Repository.MasterIndex

/-!
# Saving the whole master index

`MasterIndex.Save` writes all indexes again, without the packs of a blacklist.
A producer collects the entries pack by pack in new indexes, and hands those to
workers that save them.  Every index is iterated by a goroutine of its own,
which ends when the context is cancelled; so does the producer when it waits for
a worker.  The channel is a queue here: whatever happens with an unbuffered
channel happens with a queue as well.  The lock of the master index is held all
the time.
-/

namespace Rapi.Repository

open Foundation Restic List Logic

/-! ## The entries of an index by pack -/

namespace Index

def byPack (idx : Index) (packBlacklist : Finset ID) (t : BlobType) : List PackJSON :=
  (((idx.byType t).entries.map (toPackedBlob idx.packs t)).filter
    fun pb => !idx.final || pb.packID ∉ packBlacklist).foldl addToPackList []

/-- What `EachByPack` yields; a map is iterated in any order. -/
def EachByPack (idx : Index) (packBlacklist : Finset ID) (results : List PackJSON) : Prop :=
  ∃ order : BlobType → List PackJSON, (∀ t, (order t).Perm (idx.byPack packBlacklist t)) ∧
      results = [BlobType.invalid, .data, .tree].flatMap order

/-- The entries that are not left out. -/
def kept (idx : Index) (packBlacklist : Finset ID) : Multiset PackedBlob :=
  idx.content.filter fun pb => idx.final → pb.packID ∉ packBlacklist

theorem EachByPack.listed {idx : Index} {packBlacklist : Finset ID} {results : List PackJSON}
    (h : idx.EachByPack packBlacklist results) : listedIn results = idx.kept packBlacklist := by
  obtain ⟨order, horder, rfl⟩ := h
  have htyped : ∀ t, listedIn (order t) = (typed idx.packs t (idx.byType t)).filter
        fun pb => idx.final → pb.packID ∉ packBlacklist := by
    intro t
    have hperm : listedIn (order t) = listedIn (idx.byPack packBlacklist t) :=
      Multiset.coe_eq_coe.mpr ((horder t).flatMap_right _)
    rw [hperm, byPack, listedIn_foldl, typed, Multiset.map_coe, Multiset.filter_coe]
    simp [listedIn, imp_iff_not_or]
  simp only [flatMap_cons, flatMap_nil, append_nil,
    listedIn_append, htyped, kept, content, contentOf, Multiset.filter_add, add_assoc]

end Index

namespace SaveAll

/-! ## The state and the actions -/

structure State where
  queue : List Index
  closed : Bool
  cancelled : Bool
  indexFiles : Store ID JsonIndex

inductive Op
  | newIndex
  | eachByPack (idx : Index) (packBlacklist : Finset ID)
  | next
  | indexFull (idx : Index)
  | send (idx : Index)
  | close
  | receive
  | saveIndexFile (file : JsonIndex)
  | panic

abbrev Op.Res : Op → Type
  | .newIndex => Index
  | .eachByPack _ _ => List PackJSON
  | .next => Bool
  | .indexFull _ => Bool
  | .send _ => Bool
  | .close => Unit
  | .receive => Option Index
  | .saveIndexFile _ => Bool
  | .panic => Empty

/-- `existing` are the index files that are already in the backend. -/
def exec (existing : List ID) : (op : Op) → State → op.Res → State → Prop
  | .newIndex, s, idx, s' => (∃ seed now, idx = .new seed now) ∧ s' = s
  | .eachByPack idx packBlacklist, s, results, s' => idx.EachByPack packBlacklist results ∧ s' = s
  -- the iteration ends early
  | .next, s, more, s' => (more = false → s.cancelled) ∧ s' = s
  -- any predicate, which may depend on the time
  | .indexFull _, s, _, s' => s' = s
  | .send idx, s, sent, s' =>
    sent = true ∧ s.closed = false ∧
        s' = { s with queue := s.queue ++ [idx] } ∨
      sent = false ∧ s.cancelled ∧ s' = s
  | .close, s, _, s' => s' = { s with closed := true }
  | .receive, s, received, s' =>
    (∃ idx rest, s.queue = idx :: rest ∧ received = some idx ∧
        s' = { s with queue := rest }) ∨
      s.queue = [] ∧ s.closed ∧ received = none ∧ s' = s
  | .saveIndexFile file, s, failed, s' =>
    (∃ id, id ∉ existing ∧ id ∉ s.indexFiles.names ∧
        s' = { s with indexFiles := s.indexFiles.save id file }) ∨
      failed = true ∧ s' = s
  | .panic, _, _, _ => False

def system (existing : List ID) : System State Op Op.Res where
  exec := exec existing
  env s s' := s' = { s with cancelled := true }

/-! ## The programs -/

abbrev SaveM := Prog Op Op.Res

def perform (op : Op) : SaveM op.Res := .perform op

inductive Error
  | finalized
  | saveIndex

/-- Store packs until the index is full.  Nothing is returned when the context
is cancelled while no worker takes it. -/
def forward : List PackJSON → Index → SaveM (Option Index)
  | [], newIndex => return some newIndex
  | pbs :: results, newIndex => do
      if ← perform .next then
        match newIndex.storePack pbs.id pbs.blobs with
        | none => .act .panic nofun
        | some newIndex =>
          if ← perform (.indexFull newIndex) then
            if ← perform (.send newIndex) then
              let newIndex ← perform .newIndex
              forward results newIndex
            else return none
          else forward results newIndex
      else return some newIndex

def produce (packBlacklist : Finset ID) (extraObsolete : List ID) :
    List Index → Index → Finset ID → SaveM (Finset ID × Option Error)
  | [], newIndex, obsolete =>
    match newIndex.addToSupersedes extraObsolete with
    | none => return (obsolete, some .finalized)
    | some newIndex => do
        let _ ← perform (.send newIndex)
        return (obsolete ∪ extraObsolete.toFinset, none)
  | idx :: rest, newIndex, obsolete =>
    match if idx.final then newIndex.addToSupersedes idx.ids else some newIndex with
    | none => return (obsolete, some .finalized)
    | some newIndex => do
        let obsolete := if idx.final then obsolete ∪ idx.ids.toFinset else obsolete
        let results ← perform (.eachByPack idx packBlacklist)
        match ← forward results newIndex with
        | none => return (obsolete, none)
        | some newIndex => produce packBlacklist extraObsolete rest newIndex obsolete

def producer (packBlacklist : Finset ID) (extraObsolete : List ID)
    (idxs : List Index) : SaveM (Finset ID × Option Error) := do
  let newIndex ← perform .newIndex
  let result ← produce packBlacklist extraObsolete idxs newIndex ∅
  perform .close
  return result

def worker : SaveM (Option (Finset ID × Option Error)) := do
  match ← perform .receive with
  | none => return some (∅, none)
  | some idx =>
    match idx.finalize.encode with
    | none => .act .panic nofun
    | some file =>
      if ← perform (.saveIndexFile file) then return some (∅, some .saveIndex)
      else return none

def saveIndexParallelism : Nat := 4

end SaveAll

open SaveAll in
/-- The producer and the workers when `Save` begins. -/
def MasterIndex.save (mi : MasterIndex) (packBlacklist : Finset ID) (extraObsolete : List ID) :
    Pool State Op Op.Res (Finset ID × Option Error) (Option (Fin saveIndexParallelism)) where
  state := ⟨[], false, false, []⟩
  threads
    | none => .once (producer packBlacklist extraObsolete mi.idx)
    | some _ => ⟨worker, worker⟩

open SaveAll in
/-- `Save` may return the set without an error, in the given state. -/
def MasterIndex.SaveReturns (mi : MasterIndex) (existing : List ID) (packBlacklist : Finset ID)
    (extraObsolete : List ID) (obsolete : Finset ID) (s : State) : Prop :=
  ∃ pool results, Relation.ReflTransGen (Pool.Step (system existing))
      (mi.save packBlacklist extraObsolete) pool ∧
    pool.Finished results ∧ (∀ i, (results i).2 = none) ∧
    (results none).1 = obsolete ∧ pool.state = s

namespace SaveAll

/-! ## No entry is lost -/

def weight (idx : Index) : Multiset PackedBlob × Multiset ID :=
  (idx.content, (idx.supersedes : Multiset ID))

def fileWeight (file : ID × JsonIndex) : Multiset PackedBlob × Multiset ID :=
  (file.2.listed, (file.2.supersedes : Multiset ID))

variable {idx : Index}

theorem fileWeight_encode {file : JsonIndex} (id : ID)
    (h : idx.finalize.encode = some file) : fileWeight (id, file) = weight idx := by
  have hlisted := Index.listed_encode h
  obtain ⟨packs, -, rfl⟩ := Option.map_eq_some_iff.mp h
  exact Prod.ext hlisted rfl

theorem weight_addToSupersedes {idx' : Index} {ids : List ID}
    (h : idx.addToSupersedes ids = some idx') :
    weight idx' = weight idx + (0, (ids : Multiset ID)) ∧ idx'.final = false := by
  unfold Index.addToSupersedes at h
  split at h
  · cases h
  · rename_i hfinal
    cases h
    refine ⟨Prod.ext (add_zero _).symm ?_, by simpa using hfinal⟩
    exact (Multiset.coe_add _ _).symm

theorem weight_storePack {idx' : Index} {pbs : PackJSON}
    (h : idx.storePack pbs.id pbs.blobs = some idx') :
    weight idx' = weight idx + (listedIn [pbs], 0) := by
  obtain ⟨hcontent, -⟩ := Index.storePack_spec h
  refine Prod.ext ?_ ?_
  · change idx'.content = idx.content + listedIn [pbs]
    rw [hcontent, add_comm]
    simp [listedIn]
  · unfold Index.storePack at h
    split at h
    · cases h
    · split at h
      · cases h
      · cases h
        exact (add_zero _).symm

/-- All of `total` is carried, or on its way to a worker, or saved. -/
def logic (total : Multiset PackedBlob × Multiset ID) :
    Logic State (Multiset PackedBlob × Multiset ID) where
  inv s m := total = m + (s.queue.map weight).sum + (s.indexFiles.map fileWeight).sum
  later s s' := (s.closed ∧ s.queue = [] → s'.closed ∧ s'.queue = []) ∧
    (s.cancelled → s'.cancelled)
  busy _ := True
  refl _ := ⟨id, id⟩
  trans h h' := ⟨fun hs => h'.1 (h.1 hs), fun hs => h'.2 (h.2 hs)⟩
  busy_add _ _ := trivial

section Specifications

variable {total : Multiset PackedBlob × Multiset ID} {existing : List ID}

/-- What the producer still has, unless packs were left out. -/
def ForwardPost (result : Option Index) (s : State)
    (m : Multiset PackedBlob × Multiset ID) : Prop :=
  match result with
  | none => s.cancelled
  | some newIndex => ∃ lost, m = weight newIndex + lost ∧
      (lost = 0 ∨ s.cancelled)

variable {idx : Index}

private theorem inv_send {s : State} {frame : Multiset PackedBlob × Multiset ID}
    (h : (logic total).inv s (weight idx + frame)) :
    (logic total).inv { s with queue := s.queue ++ [idx] } frame := by
  refine Eq.trans h ?_
  rw [map_append, sum_append]
  simp only [map_cons, map_nil, sum_cons, sum_nil, add_zero]
  abel

private theorem later_send {s : State} (hopen : s.closed = false) :
    (logic total).later s { s with queue := s.queue ++ [idx] } := by
  refine ⟨fun ⟨hclosed, _⟩ => ?_, id⟩
  rw [hopen] at hclosed
  cases hclosed

theorem wp_forward (results : List PackJSON) (newIndex : Index) (s : State) :
    (logic total).wp (system existing) (forward results newIndex) ForwardPost
      s (weight newIndex + (listedIn results, 0)) := by
  induction results generalizing newIndex s with
  | nil =>
    refine wp_pure fun s' _ => ⟨0, ?_, Or.inl rfl⟩
    rfl
  | cons pbs results ih =>
    refine wp_perform trivial fun s₁ frame _ hinv more s' hexec => ?_
    obtain ⟨hended, rfl⟩ := hexec
    refine ⟨_, hinv, (logic total).refl _, ?_⟩
    cases more with
    | false =>
      refine wp_pure fun s' hlater => ⟨_, rfl, Or.inr ?_⟩
      exact hlater.2 (hended rfl)
    | true =>
      rw [if_pos rfl]
      cases hstore : newIndex.storePack pbs.id pbs.blobs with
      | none => exact ⟨trivial, fun _ _ _ _ _ _ hpanic => hpanic.elim⟩
      | some stored =>
        have hweight : weight newIndex + (listedIn (pbs :: results), 0) =
            weight stored + (listedIn results, 0) := by
          have hcons : (listedIn (pbs :: results), (0 : Multiset ID)) =
              (listedIn [pbs], 0) + (listedIn results, 0) :=
            Prod.ext (listedIn_append [pbs] results) rfl
          rw [hcons, ← add_assoc, ← weight_storePack hstore]
        rw [hweight]
        refine wp_perform trivial fun s₂ frame _ hinv full s' hexec => ?_
        cases hexec
        refine ⟨_, hinv, (logic total).refl _, ?_⟩
        cases full with
        | false => exact ih stored _
        | true =>
          rw [if_pos rfl]
          refine wp_perform trivial fun s₃ frame _ hinv sent s' hexec => ?_
          rcases hexec with ⟨rfl, hopen, rfl⟩ | ⟨rfl, hcancelled, rfl⟩
          · refine ⟨(listedIn results, 0), ?_, later_send hopen, ?_⟩
            · rw [add_assoc] at hinv
              exact inv_send hinv
            · rw [if_pos rfl]
              refine wp_perform trivial fun s₄ frame _ hinv fresh s' hexec => ?_
              obtain ⟨⟨seed, now, rfl⟩, rfl⟩ := hexec
              refine ⟨_, hinv, (logic total).refl _, ?_⟩
              have hnew : weight (.new seed now) = 0 := rfl
              have hrest := ih (.new seed now) s'
              rwa [hnew, zero_add] at hrest
          · refine ⟨_, hinv, (logic total).refl _, ?_⟩
            exact wp_pure fun s' hlater => hlater.2 hcancelled

def indexWeight (packBlacklist : Finset ID) (idx : Index) : Multiset PackedBlob × Multiset ID :=
  (idx.kept packBlacklist, if idx.final then (idx.ids : Multiset ID) else 0)

def ProducerPost (obsolete : Finset ID) (result : Finset ID × Option Error)
    (s : State) (m : Multiset PackedBlob × Multiset ID) : Prop :=
  result.2 = none → s.cancelled ∨ m = 0 ∧ result.1 = obsolete

def obsoleteIDs (idxs : List Index) : List ID := (idxs.filter (·.final)).flatMap (·.ids)

private theorem weight_superseding {newIndex added : Index} (packBlacklist : Finset ID)
    (h : (if idx.final then newIndex.addToSupersedes idx.ids else some newIndex) = some added) :
    weight newIndex + indexWeight packBlacklist idx =
      weight added + (idx.kept packBlacklist, 0) := by
  have hsplit : indexWeight packBlacklist idx =
      (0, if idx.final then (idx.ids : Multiset ID) else 0) + (idx.kept packBlacklist, 0) :=
    Prod.ext (zero_add _).symm (add_zero _).symm
  rw [hsplit, ← add_assoc]
  split at h
  · rename_i hfinal
    rw [(weight_addToSupersedes h).1, if_pos hfinal]
  · rename_i hfinal
    cases h
    rw [if_neg hfinal]
    exact congrArg (· + _) (add_zero _)

theorem wp_produce (packBlacklist : Finset ID) (extraObsolete : List ID)
    (idxs : List Index) (newIndex : Index) (obsolete : Finset ID) (s : State) :
    (logic total).wp (system existing) (produce packBlacklist extraObsolete idxs newIndex obsolete)
      (ProducerPost (obsolete ∪ (obsoleteIDs idxs ++ extraObsolete).toFinset)) s
      (weight newIndex + (idxs.map (indexWeight packBlacklist)).sum +
        (0, (extraObsolete : Multiset ID))) := by
  induction idxs generalizing newIndex obsolete s with
  | nil =>
    unfold produce
    rw [map_nil, sum_nil, add_zero]
    cases hadd : newIndex.addToSupersedes extraObsolete with
    | none => exact wp_pure fun _ _ hnone => by cases hnone
    | some added =>
      rw [← (weight_addToSupersedes hadd).1]
      refine wp_perform trivial fun s₁ frame _ hinv sent s' hexec => ?_
      rcases hexec with ⟨rfl, hopen, rfl⟩ | ⟨rfl, hcancelled, rfl⟩
      · refine ⟨0, ?_, later_send hopen, ?_⟩
        · rw [zero_add]
          exact inv_send hinv
        · exact wp_pure fun _ _ _ => Or.inr ⟨rfl, rfl⟩
      · refine ⟨_, hinv, (logic total).refl _, ?_⟩
        exact wp_pure fun _ hlater _ => Or.inl (hlater.2 hcancelled)
  | cons idx rest ih =>
    unfold produce
    cases hadd : (if idx.final then newIndex.addToSupersedes idx.ids
        else some newIndex) with
    | none => exact wp_pure fun _ _ hnone => by cases hnone
    | some added =>
      rw [map_cons, sum_cons, ← add_assoc, weight_superseding packBlacklist hadd, add_assoc]
      refine wp_perform trivial fun s₁ frame _ hinv results s' hexec => ?_
      obtain ⟨hresults, rfl⟩ := hexec
      refine ⟨_, hinv, (logic total).refl _, ?_⟩
      rw [← hresults.listed]
      refine wp_bind (wp_mono (wp_frame (wp_forward results added _) trivial) ?_)
      rintro result s₂ _ _ ⟨used, rfl, hused⟩
      cases result with
      | none =>
        refine wp_pure fun s₃ hlater _ => Or.inl ?_
        exact hlater.2 hused
      | some newIndex' =>
        obtain ⟨lost, rfl, hlost⟩ := hused
        have hobsolete : obsolete ∪ (obsoleteIDs (idx :: rest) ++ extraObsolete).toFinset =
            (if idx.final then obsolete ∪ idx.ids.toFinset
              else obsolete) ∪ (obsoleteIDs rest ++ extraObsolete).toFinset := by
          cases hfinal : idx.final <;> simp [obsoleteIDs, hfinal]
        rw [hobsolete, add_right_comm, ← add_assoc]
        refine wp_mono (wp_frame (ih newIndex' _ s₂) trivial) ?_
        rintro result s₃ _ hlater ⟨used, rfl, hpost⟩ hnone
        rcases hpost hnone with hcancelled | ⟨rfl, hsame⟩
        · exact Or.inl hcancelled
        · refine hlost.symm.imp hlater.2 fun hlost => ?_
          exact ⟨by rw [hlost, zero_add], hsame⟩

theorem wp_producer (packBlacklist : Finset ID) (extraObsolete : List ID)
    (idxs : List Index) (s : State) : (logic total).wp (system existing)
      (producer packBlacklist extraObsolete idxs)
      (ProducerPost (obsoleteIDs idxs ++ extraObsolete).toFinset) s
      ((idxs.map (indexWeight packBlacklist)).sum + (0, (extraObsolete : Multiset ID))) := by
  refine wp_perform trivial fun s₁ frame _ hinv newIndex s' hexec => ?_
  obtain ⟨⟨seed, now, rfl⟩, rfl⟩ := hexec
  refine ⟨_, hinv, (logic total).refl _, ?_⟩
  have hnew : weight (.new seed now) = 0 := rfl
  have hproduce := @wp_produce total existing packBlacklist extraObsolete idxs (.new seed now) ∅ s'
  rw [hnew, zero_add, Finset.empty_union] at hproduce
  refine wp_bind (wp_mono hproduce ?_)
  rintro result s₂ m _ hpost
  refine wp_perform trivial fun s₃ frame hs₃ hinv _ s' hexec => ?_
  cases hexec
  refine ⟨m, hinv, ⟨fun hs => ⟨rfl, hs.2⟩, id⟩, ?_⟩
  refine wp_pure fun s₄ hs₄ hnone => ?_
  exact (hpost hnone).imp_left fun hcancelled => hs₄.2 (hs₃.2 hcancelled)

/-- No index is left when a worker ends. -/
def WorkerPost (result : Finset ID × Option Error) (s : State)
    (m : Multiset PackedBlob × Multiset ID) : Prop := result.2 = none → m = 0 ∧ s.queue = []

theorem wp_worker (s : State) : (logic total).wp (system existing) worker
      (Logic.loopPost (· = 0) WorkerPost)
      s 0 := by
  refine wp_perform trivial fun s₁ frame _ hinv received s' hexec => ?_
  rw [zero_add] at hinv
  rcases hexec with ⟨idx, rest, hqueue, rfl, rfl⟩ | ⟨hqueue, hclosed, rfl, rfl⟩
  · refine ⟨weight idx, ?_, ?_, ?_⟩
    · refine Eq.trans hinv ?_
      rw [hqueue, map_cons, sum_cons]
      abel
    · refine ⟨fun hs => ?_, id⟩
      rw [hqueue] at hs
      cases hs.2
    · dsimp only
      cases hencode : idx.finalize.encode with
      | none => exact ⟨trivial, fun _ _ _ _ _ _ hpanic => hpanic.elim⟩
      | some file =>
        refine wp_perform trivial fun s₂ frame _ hinv failed s' hexec => ?_
        rcases hexec with ⟨id, -, -, rfl⟩ | ⟨rfl, rfl⟩
        · refine ⟨0, ?_, ⟨fun hs => hs, fun hs => hs⟩, ?_⟩
          · refine Eq.trans hinv ?_
            rw [Store.save, map_cons, sum_cons, fileWeight_encode id hencode]
            abel
          · split
            · exact wp_pure fun _ _ hnone => by cases hnone
            · exact wp_pure fun _ _ => rfl
        · refine ⟨_, hinv, (logic total).refl _, ?_⟩
          exact wp_pure fun _ _ hnone => by cases hnone
  · refine ⟨0, by rwa [zero_add], (logic total).refl _, ?_⟩
    exact wp_pure fun s₂ hlater _ => ⟨rfl, (hlater.1 ⟨hclosed, hqueue⟩).2⟩

end Specifications

end SaveAll

open SaveAll

variable {mi : MasterIndex} {existing : List ID} {packBlacklist : Finset ID}
  {extraObsolete : List ID} {obsolete : Finset ID} {s : State}

def MasterIndex.kept (mi : MasterIndex) (packBlacklist : Finset ID) : Multiset PackedBlob :=
  (mi.idx.map (·.kept packBlacklist)).sum

/-- The producer carries everything in the beginning. -/
def initially (mi : MasterIndex) (packBlacklist : Finset ID)
    (extraObsolete : List ID) : Multiset PackedBlob × Multiset ID :=
  (mi.idx.map (indexWeight packBlacklist)).sum + (0, (extraObsolete : Multiset ID))

theorem saveReturns_written (h : mi.SaveReturns existing packBlacklist extraObsolete obsolete s)
    (hcancelled : s.cancelled = false) : (s.indexFiles.map fileWeight).sum =
        initially mi packBlacklist extraObsolete ∧
      obsolete = (obsoleteIDs mi.idx ++ extraObsolete).toFinset := by
  obtain ⟨pool, results, hsteps, hfinished, hnone, rfl, rfl⟩ := h
  have hsafe : (logic (initially mi packBlacklist extraObsolete)).PoolSafe (system existing)
      (fun i => i.elim (fun _ => False) fun _ m => m = 0) (fun i => i.elim
        (ProducerPost (obsoleteIDs mi.idx ++ extraObsolete).toFinset) fun _ => WorkerPost)
      (mi.save packBlacklist extraObsolete) := by
    refine ⟨fun i => i.elim (initially mi packBlacklist extraObsolete) fun _ => 0, ?_, ?_⟩
    · rw [Fintype.sum_option]
      simp [logic, MasterIndex.save]
    · rintro (_ | i)
      · exact Logic.Safe.once (wp_producer _ _ _ _)
      · refine .loop_forever ?_ rfl
        rintro m rfl
        exact wp_worker _
  have henv : ∀ s s' m, (logic (initially mi packBlacklist extraObsolete)).inv
      s m → (system existing).env s s' →
      (logic (initially mi packBlacklist extraObsolete)).inv s' m ∧
        (logic (initially mi packBlacklist extraObsolete)).later s s' := by
    rintro s _ m hinv rfl
    exact ⟨hinv, fun hs => hs, fun _ => rfl⟩
  obtain ⟨own, hinv, hpost⟩ := (hsafe.steps henv hsteps).1.finished hfinished
  obtain ⟨hproducer, hobsolete⟩ := (hpost none (hnone none)).resolve_left
    (by rw [hcancelled]; nofun)
  have hworkers : ∀ i, own (some i) = 0 ∧ pool.state.queue = [] :=
    fun i => hpost (some i) (hnone (some i))
  refine ⟨?_, hobsolete⟩
  have htotal : ∑ i, own i = 0 := by
    rw [Fintype.sum_option, hproducer, zero_add]
    exact Finset.sum_eq_zero fun i _ => (hworkers i).1
  change _ = _ at hinv
  rw [hinv, htotal, (hworkers ⟨0, by decide⟩).2]
  simp

theorem saveReturns_listed (h : mi.SaveReturns existing packBlacklist extraObsolete obsolete s)
    (hcancelled : s.cancelled = false) :
    (s.indexFiles.map fun file => file.2.listed).sum = mi.kept packBlacklist := by
  have hlisted := congrArg (AddMonoidHom.fst _ _) (saveReturns_written h hcancelled).1
  rw [initially, map_add, map_list_sum, map_list_sum, map_map, map_map] at hlisted
  exact hlisted.trans (add_zero _)

theorem save_writes_index
    (h : mi.SaveReturns existing packBlacklist extraObsolete obsolete s)
    (hcancelled : s.cancelled = false) :
    (s.indexFiles.map fun file => file.2.listed).sum =
        mi.kept packBlacklist ∧
      obsolete = ((mi.idx.filter (·.final)).flatMap (·.ids) ++ extraObsolete).toFinset ∧
      ∀ id ∈ obsolete, ∃ file ∈ s.indexFiles, id ∈ file.2.supersedes := by
  obtain ⟨hwritten, hobsolete⟩ := saveReturns_written h hcancelled
  refine ⟨saveReturns_listed h hcancelled, hobsolete, fun id hid => ?_⟩
  have hsupersedes := congrArg (AddMonoidHom.snd _ _) hwritten
  rw [initially, map_add, map_list_sum, map_list_sum, map_map, map_map] at hsupersedes
  have hin : id ∈ (s.indexFiles.map (AddMonoidHom.snd _ _ ∘ fileWeight)).sum := by
    rw [hobsolete, mem_toFinset, mem_append, obsoleteIDs, mem_flatMap] at hid
    rw [hsupersedes, Multiset.mem_add, mem_sum_map]
    refine hid.imp (fun ⟨idx, hidx, hid⟩ => ?_) fun hid => hid
    obtain ⟨hidx, hfinal⟩ := mem_filter.mp hidx
    exact ⟨idx, hidx, by simpa [indexWeight, hfinal] using hid⟩
  exact mem_sum_map.mp hin

theorem save_keeps_entries
    (h : mi.SaveReturns existing packBlacklist extraObsolete obsolete s)
    (hcancelled : s.cancelled = false) :
    ∀ pb ∈ mi.kept packBlacklist, ∃ file ∈ s.indexFiles, pb ∈ file.2.listed := by
  intro pb hpb
  rw [← saveReturns_listed h hcancelled, mem_sum_map] at hpb
  exact hpb

/-! ## Runs on small indexes -/

def samplePackID : ID := ⟨List.replicate idSize 7, by simp⟩

/-- Packs with a blob each. -/
def sampleIndex (packs : List ID) : Index :=
  packs.foldl (fun idx id => (idx.storePack id [⟨⟨id, .data⟩, 32, 0⟩]).getD idx)
    (.new (fun _ _ => 0) 0)

def sampleMaster : MasterIndex :=
  { MasterIndex.new (fun _ _ => 0) 0 with rest := [sampleIndex [samplePackID]] }

/-- A new pack, and two in an index that was loaded. -/
def loadedMaster : MasterIndex :=
  { MasterIndex.new (fun _ _ => 0) 0 with
    rest := [sampleIndex [.ofNat 1],
      { (sampleIndex [.ofNat 2, .ofNat 3]).finalize with ids := [.ofNat 5] }] }

section Playback

open SaveAll

/-- The packs come in the order of the index, and nothing fails, but the context may be
cancelled. -/
def SaveAll.playback (existing : List ID) (full : Index → Bool) : Playback (system existing) where
  answer
  | .newIndex, s => some ⟨(.new (fun _ _ => 0) 0, s), ⟨_, _, rfl⟩, rfl⟩
  | .eachByPack idx packBlacklist, s =>
    let packs := [BlobType.invalid, .data, .tree].flatMap (idx.byPack packBlacklist)
    some ⟨(packs, s), ⟨_, fun _ => .refl _, rfl⟩, rfl⟩
  | .next, s => some ⟨(!s.cancelled, s), fun hstop => by simpa using hstop, rfl⟩
  | .indexFull idx, s => some ⟨(full idx, s), rfl⟩
  | .send idx, s =>
    if hcancelled : s.cancelled then some ⟨(false, s), .inr ⟨rfl, hcancelled, rfl⟩⟩
    else if hopen : s.closed = false then
      some ⟨(true, { s with queue := s.queue ++ [idx] }), .inl ⟨rfl, hopen, rfl⟩⟩
    else none
  | .close, s => some ⟨((), { s with closed := true }), rfl⟩
  | .receive, s =>
    match hqueue : s.queue with
    | idx :: rest => some ⟨(some idx, { s with queue := rest }), .inl ⟨idx, rest, hqueue, rfl, rfl⟩⟩
    | [] =>
      if hclosed : s.closed then some ⟨(none, s), .inr ⟨hqueue, hclosed, rfl, rfl⟩⟩ else none
  | .saveIndexFile file, s =>
    let id : ID := .ofNat (existing.length + s.indexFiles.length)
    if hnew : id ∉ existing ∧ id ∉ s.indexFiles.names then
      some ⟨(false, { s with indexFiles := s.indexFiles.save id file }),
        .inl ⟨id, hnew.1, hnew.2, rfl⟩⟩
    else none
  | .panic, _ => none
  interfere s := some ⟨{ s with cancelled := true }, rfl⟩

deriving instance DecidableEq for SaveAll.Error

/-- The producer runs, then one of the workers saves `count` indexes. -/
def saveTurns (count : Nat) : List (Turn (Option (Fin saveIndexParallelism))) :=
  .thread none :: (List.replicate count (.thread (some ⟨0, by decide⟩)) ++
    (List.finRange saveIndexParallelism).map fun i => .thread (some i))

theorem exists_saveReturns (pb : Playback (system existing))
    (turns : List (Turn (Option (Fin saveIndexParallelism)))) (P : State → Prop)
    (h : let pool := (mi.save packBlacklist extraObsolete).play pb turns
      (∀ i, pool.result? i = some (i.elim obsolete fun _ => ∅, none)) ∧ P pool.state) :
    ∃ s, mi.SaveReturns existing packBlacklist extraObsolete obsolete s ∧ P s :=
  ⟨_, ⟨_, _, Pool.steps_play pb _ turns, Pool.finished_of_result? h.1, fun _ => rfl, rfl, rfl⟩, h.2⟩

end Playback

/-- An index is full with one pack, and the second pack is left out. -/
theorem save_writes_index_loaded :
    ∃ s, loadedMaster.SaveReturns [.ofNat 5] { ID.ofNat 2 } [.ofNat 6]
        { ID.ofNat 5, ID.ofNat 6 } s ∧ s.indexFiles.length = 3 ∧
      (s.indexFiles.map fun file => file.2.listed).sum =
        loadedMaster.kept { ID.ofNat 2 } ∧
      ∃ file ∈ s.indexFiles, ID.ofNat 5 ∈ file.2.supersedes := by
  obtain ⟨s, hreturns, hcancelled, hfiles⟩ : ∃ s, loadedMaster.SaveReturns [.ofNat 5]
      { ID.ofNat 2 } [.ofNat 6] { ID.ofNat 5, ID.ofNat 6 } s ∧
        s.cancelled = false ∧ s.indexFiles.length = 3 :=
    exists_saveReturns (playback _ fun idx => idx.packs.length = 1) (saveTurns 3)
      (fun s => s.cancelled = false ∧ s.indexFiles.length = 3) (by decide +kernel)
  obtain ⟨hlisted, -, hsuperseded⟩ := save_writes_index hreturns hcancelled
  exact ⟨s, hreturns, hfiles, hlisted, hsuperseded (.ofNat 5) (by decide)⟩

theorem save_keeps_entries_once :
    ∃ s, sampleMaster.SaveReturns [] ∅ [] ∅ s ∧ ∃ file ∈ s.indexFiles,
      Index.packed samplePackID ⟨⟨samplePackID, .data⟩, 32, 0⟩ ∈ file.2.listed := by
  obtain ⟨s, hreturns, hcancelled⟩ : ∃ s, sampleMaster.SaveReturns [] ∅ [] ∅ s ∧
      s.cancelled = false :=
    exists_saveReturns (playback [] fun _ => false) (saveTurns 1) (·.cancelled = false)
      (by decide +kernel)
  exact ⟨s, hreturns, save_keeps_entries hreturns hcancelled _ (by decide)⟩

theorem not_save_keeps_entries :
    ¬ ∀ (mi : MasterIndex) (existing : List ID) (packBlacklist : Finset ID)
      (extraObsolete : List ID) (obsolete : Finset ID) (s : State),
      mi.SaveReturns existing packBlacklist extraObsolete obsolete s →
      ∀ pb ∈ mi.kept packBlacklist, ∃ file ∈ s.indexFiles, pb ∈ file.2.listed := by
  intro hall
  -- the context is cancelled before anything is read
  obtain ⟨s, hreturns, hfiles⟩ : ∃ s, sampleMaster.SaveReturns [] ∅ [] ∅ s ∧
      s.indexFiles.length = 0 :=
    exists_saveReturns (playback [] fun _ => false) (.environment :: saveTurns 0)
      (·.indexFiles.length = 0) (by decide +kernel)
  obtain ⟨file, hfile, -⟩ := hall _ _ _ _ _ _ hreturns
    (Index.packed samplePackID ⟨⟨samplePackID, .data⟩, 32, 0⟩) (by decide)
  rw [length_eq_zero_iff.mp hfiles] at hfile
  cases hfile

end Rapi.Repository
