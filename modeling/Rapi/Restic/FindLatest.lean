import Rapi.Foundation.Fanout
import Rapi.Foundation.FilePath
import Rapi.Restic.Blob
import Rapi.Restic.SnapshotPolicy

/-!
# Finding the latest snapshot

`FindLatestSnapshot` loads all snapshots with several workers.  The callback runs
under a lock, in the order in which the workers get it, and keeps the latest snapshot
that passes the filters.
-/

namespace Rapi.Restic.Latest

open Foundation List

/-- A snapshot with its time in nanoseconds since the year 1. -/
structure Snapshot extends Policy.Snapshot Int where
  hostname : Bytes
  paths : List Bytes

namespace Snapshot

def hasTagList (sn : Snapshot) (l : List (List String)) : Bool :=
  if l.length = 0 then true else l.any sn.hasTags

def hasPath (sn : Snapshot) (path : Bytes) : Bool := sn.paths.any (path = ·)

def hasPaths (sn : Snapshot) (paths : List Bytes) : Bool := paths.all sn.hasPath

def hasHostname (sn : Snapshot) (hostnames : List Bytes) : Bool :=
  if hostnames.length = 0 then true else hostnames.any (sn.hostname = ·)

end Snapshot

inductive Error (ε : Type)
  | abs (err : ε)
  | loading (id : ID) (err : ε)
  | noSnapshotFound

structure Query where
  targets : List Bytes
  tagLists : List (List String)
  hostnames : List Bytes
  timeStampLimit : Option Int

structure Found where
  latest : Int := 0
  latestID : ID := .null
  found : Bool := false

section Find

variable {ε : Type} (q : Query)

/-- The absolute targets, given the working directory. -/
def absTargets (getwd : Except ε Bytes) : Except ε (List Bytes) :=
  q.targets.mapM fun target =>
    if FilePath.isAbs target then .ok (FilePath.clean target)
    else getwd.map fun wd => FilePath.clean (FilePath.join wd target)

/-- The callback of `ForAllSnapshots`. -/
def visit (targets : List Bytes) (s : Found) : ID × Except ε Snapshot → Except (Error ε) Found
  | (id, .error err) => .error (.loading id err)
  | (id, .ok sn) =>
    if q.timeStampLimit.any (· < sn.time) then .ok s
    else if sn.time < s.latest then .ok s
    else if !sn.hasHostname q.hostnames then .ok s
    else if !sn.hasTagList q.tagLists then .ok s
    else if !sn.hasPaths targets then .ok s
    else .ok ⟨sn.time, id, true⟩

/-- The snapshots are in the order of the calls. -/
def findLatestSnapshot (getwd : Except ε Bytes) (loaded : List (ID × Except ε Snapshot)) :
    Except (Error ε) ID := do
  let targets ← (absTargets q getwd).mapError .abs
  let s ← loaded.foldlM (visit q targets) {}
  if s.found = false then .error .noSnapshotFound else .ok s.latestID

/-- The limit and all filters. -/
def passes (targets : List Bytes) (sn : Snapshot) : Bool :=
  !q.timeStampLimit.any (· < sn.time) && sn.hasHostname q.hostnames &&
    sn.hasTagList q.tagLists && sn.hasPaths targets

/-- The targets if there is a working directory. -/
def targetsFrom (wd : Bytes) : List Bytes :=
  q.targets.map fun target =>
    FilePath.clean (if FilePath.isAbs target then target else FilePath.join wd target)

theorem absTargets_ok (wd : Bytes) :
    absTargets q (.ok wd : Except ε Bytes) = .ok (targetsFrom q wd) := by
  unfold absTargets targetsFrom
  induction q.targets with
  | nil => rfl
  | cons target targets ih =>
    rw [mapM_cons, ih]
    by_cases habs : FilePath.isAbs target <;> simp [habs] <;> rfl

theorem findLatestSnapshot_ok (wd : Bytes) (loaded : List (ID × Except ε Snapshot)) :
    findLatestSnapshot q (.ok wd) loaded = (do
      let s ← loaded.foldlM (visit q (targetsFrom q wd)) {}
      if s.found = false then .error .noSnapshotFound else .ok s.latestID) := by
  rw [findLatestSnapshot, absTargets_ok]
  rfl

variable {q} {targets : List Bytes} {snapshots : ID → Snapshot} {ids rest : List ID}
  {s : Found} {id : ID}

theorem visit_ok (s : Found) (id : ID) (sn : Snapshot) :
    visit q targets s (id, (.ok sn : Except ε Snapshot)) =
      .ok (if passes q targets sn ∧ s.latest ≤ sn.time then ⟨sn.time, id, true⟩
        else s) := by
  rw [visit, passes]
  by_cases hold : sn.time < s.latest
  · simp [hold, Int.not_le.mpr hold]
  · cases hlimit : q.timeStampLimit.any (· < sn.time) <;>
      cases hhost : sn.hasHostname q.hostnames <;> cases htags : sn.hasTagList q.tagLists <;>
      cases hpaths : sn.hasPaths targets <;> simp [hold, Int.not_lt.mp hold]

/-- What the search knows after the snapshots `ids`. -/
structure Best (q : Query) (targets : List Bytes) (snapshots : ID → Snapshot)
    (ids : List ID) (s : Found) : Prop where
  nothing : s.found = false → s.latest = 0 ∧ ∀ id ∈ ids, passes q targets (snapshots id) = false
  passed : s.found → s.latestID ∈ ids ∧
    passes q targets (snapshots s.latestID) ∧
    (snapshots s.latestID).time = s.latest ∧
    ∀ id ∈ ids, passes q targets (snapshots id) → (snapshots id).time ≤ s.latest

theorem Best.visit (h : Best q targets snapshots ids s) (htime : 0 ≤ (snapshots id).time) :
    Best q targets snapshots (ids ++ [id])
      (if passes q targets (snapshots id) ∧ s.latest ≤ (snapshots id).time then
        ⟨(snapshots id).time, id, true⟩ else s) := by
  split
  · rename_i hnew
    refine ⟨nofun, fun _ => ⟨by simp, hnew.1, rfl, ?_⟩⟩
    intro other hother hpasses
    obtain hold | hsame := mem_append.mp hother
    · cases hfound : s.found with
      | false =>
        rw [(h.nothing hfound).2 other hold] at hpasses
        cases hpasses
      | true => exact ((h.passed hfound).2.2.2 other hold hpasses).trans hnew.2
    · rw [mem_singleton.mp hsame]
  · rename_i hkeep
    constructor
    · intro hfound
      obtain ⟨hzero, hnone⟩ := h.nothing hfound
      refine ⟨hzero, forall_mem_append.mpr ⟨hnone, ?_⟩⟩
      rw [forall_mem_singleton, Bool.eq_false_iff]
      intro hpasses
      exact hkeep ⟨hpasses, hzero ▸ htime⟩
    · intro hfound
      obtain ⟨hmem, hpasses, hlatest, hmax⟩ := h.passed hfound
      refine ⟨mem_append_left _ hmem, hpasses, hlatest, forall_mem_append.mpr ⟨hmax, ?_⟩⟩
      rw [forall_mem_singleton]
      intro hnew
      have hold : ¬s.latest ≤ (snapshots id).time := fun hle => hkeep ⟨hnew, hle⟩
      omega

theorem Best.foldlM (h : Best q targets snapshots ids s)
    (htimes : ∀ id ∈ rest, 0 ≤ (snapshots id).time) :
    ∃ t, (rest.map fun id => (id, .ok (snapshots id))).foldlM (Latest.visit q targets) s =
        (.ok t : Except (Error ε) Found) ∧
      Best q targets snapshots (ids ++ rest) t := by
  induction rest generalizing ids s with
  | nil => exact ⟨s, rfl, by rwa [append_nil]⟩
  | cons id rest ih =>
    rw [map_cons, foldlM_cons, visit_ok, append_cons]
    exact ih (h.visit (htimes id mem_cons_self)) fun other hother =>
      htimes other (mem_cons_of_mem id hother)

end Find

abbrev loadSnapshotParallelism : Nat := 5

/-- Every run of the loaders ends, and the search returns a latest one of the snapshots
that pass, in whatever order they are loaded. -/
theorem findLatestSnapshot_correct {ε : Type} (q : Query) (wd : Bytes)
    (snapshots : ID → Snapshot) (ids : List ID)
    (htimes : ∀ id ∈ ids, 0 ≤ (snapshots id).time) {n : Nat}
    {s : Fanout.State ID (ID × Except ε Snapshot) loadSnapshotParallelism}
    (hreach : ReachesIn (Fanout.step fun id => (id, .ok (snapshots id))) Anything
      (Fanout.start ids) n s) :
    let passing := fun id => passes q (targetsFrom q wd) (snapshots id)
    n ≤ 3 * ids.length + 6 ∧
      (¬s.Ended → ∃ e t, Fanout.step (fun id => (id, .ok (snapshots id))) s e = some t) ∧
      (s.Ended → (findLatestSnapshot q (.ok wd) s.results = .error .noSnapshotFound ↔
          ∀ id ∈ ids, passing id = false) ∧
        ((∃ id ∈ ids, passing id) → ∃ id ∈ ids, findLatestSnapshot q (.ok wd) s.results = .ok id ∧
            passing id ∧ ∀ other ∈ ids, passing other →
              (snapshots other).time ≤ (snapshots id).time)) := by
  intro passing
  have hreached : Fanout.Reached (fun id => (id, .ok (snapshots id))) ids n s :=
    hreach.invariant _ Fanout.reached_start fun n s e t hs _ hstep => hs.next (.of_step hstep)
  refine ⟨?_, hreached.progress (by decide), fun hended => ?_⟩
  · have hsteps := hreached.steps
    have hworkers : loadSnapshotParallelism = 5 := rfl
    omega
  -- the calls have been made for the snapshots in some order
  have hperm := hreached.perm hended
  obtain ⟨order, horder, hresults⟩ : ∃ order : List ID, order.Perm ids ∧
      s.results = order.map fun id => (id, .ok (snapshots id)) := by
    refine ⟨s.results.map Prod.fst, by simpa [Function.comp_def] using hperm.map Prod.fst, ?_⟩
    have hsame : s.results.map (fun r => (r.1, Except.ok (snapshots r.1))) =
        s.results.map id := by
      refine map_congr_left fun r hr => ?_
      obtain ⟨id, -, rfl⟩ := mem_map.mp (hperm.subset hr)
      rfl
    rw [map_map]
    exact (hsame.trans s.results.map_id).symm
  have hstart : Best q (targetsFrom q wd) snapshots [] {} := ⟨fun _ => ⟨rfl, nofun⟩, nofun⟩
  obtain ⟨found, hfold, hbest⟩ := hstart.foldlM (ε := ε) fun id hid => htimes id (horder.subset hid)
  have hresult : findLatestSnapshot q (.ok wd) s.results =
      if found.found = false then (.error .noSnapshotFound : Except (Error ε) ID)
      else .ok found.latestID := by
    rw [findLatestSnapshot_ok, hresults, hfold]
    rfl
  rw [hresult]
  cases hfound : found.found with
  | false =>
    have hnone : ∀ id ∈ ids, passing id = false := fun id hid =>
      (hbest.nothing hfound).2 id (horder.symm.subset hid)
    refine ⟨iff_of_true rfl hnone, ?_⟩
    rintro ⟨id, hid, hpasses⟩
    rw [hnone id hid] at hpasses
    cases hpasses
  | true =>
    obtain ⟨hmem, hpasses, hlatest, hmax⟩ := hbest.passed hfound
    refine ⟨iff_of_false nofun fun hnone => ?_, fun _ => ?_⟩
    · have hfalse := hnone _ (horder.subset hmem)
      exact absurd (hpasses.symm.trans hfalse) nofun
    · refine ⟨found.latestID, horder.subset hmem, rfl, hpasses, ?_⟩
      intro other hother hpassing
      rw [hlatest]
      exact hmax other (horder.symm.subset hother) hpassing

/-- Snapshots of the hosts `a` and `b`, of which one is behind the limit. -/
def sampleSnapshots (id : ID) : Snapshot where
  time :=
    if id = .ofNat 1 then 10 else if id = .ofNat 2 then 30
    else if id = .ofNat 3 then 20 else 22
  tags := []
  hostname := if id = .ofNat 4 then [98] else [97]
  paths := []

/-- Four workers load the snapshots, and the calls come in another order. -/
theorem findLatestSnapshot_correct_filtered :
    let q : Query := ⟨[], [], [[97]], some 25⟩
    ∃ s : Fanout.State ID (ID × Except Empty Snapshot) loadSnapshotParallelism,
      s.Ended ∧ s.results.map Prod.fst = [3, 4, 1, 2].map ID.ofNat ∧
        findLatestSnapshot q (.ok []) s.results = .ok (.ofNat 3) := by
  intro q
  let ids := [1, 2, 3, 4].map ID.ofNat
  let events : List (Fanout.Event loadSnapshotParallelism) :=
    [.send 0, .send 1, .send 2, .send 3, .close, .compute 2, .compute 3, .compute 1,
      .compute 0, .record 2, .record 3, .record 0, .record 1, .finish 0, .finish 1,
      .finish 2, .finish 3, .finish 4]
  obtain ⟨s, hrun⟩ : ∃ s, run (Fanout.step fun id =>
      (id, (.ok (sampleSnapshots id) : Except Empty Snapshot))) (Fanout.start ids) events =
        some s := ⟨_, rfl⟩
  have hreach := reachesIn_of_run _ ReachesIn.refl (fun _ _ _ => trivial) hrun
  have hcorrect := findLatestSnapshot_correct q [] sampleSnapshots ids (by decide) hreach
  have hended : s.Ended ∧ s.results.map Prod.fst = [3, 4, 1, 2].map ID.ofNat := by
    cases hrun
    exact ⟨⟨rfl, by decide⟩, rfl⟩
  obtain ⟨id, hid, hfound, hpasses, hlatest⟩ :=
    (hcorrect.2.2 hended.1).2 ⟨.ofNat 1, by decide, by decide⟩
  have hthree := hlatest (.ofNat 3) (by decide) (by decide)
  have hall : ∀ id ∈ ids, passes q (targetsFrom q []) (sampleSnapshots id) →
      20 ≤ (sampleSnapshots id).time → id = .ofNat 3 := by decide
  rw [hall id hid hpasses hthree] at hfound
  exact ⟨s, hended.1, hended.2, hfound⟩

end Rapi.Restic.Latest
