import Rapi.Restorer.Workers

/-!
# The programs of the workers

A worker that has received a pack owns its places, and gives up each of them by
writing it.  So when all packs are sent and all workers have ended, every place
is written.
-/

namespace Rapi.Restorer.RestoreFiles

open Foundation Restic List Logic FileRestorer

section Programs

variable {c : Setting} {α β : Type} {Q : α → State → Share → Prop} {s : State} {n m : Share}

/-! ## Rules for programs -/

abbrev Setting.wp (c : Setting) (p : RestoreM α) (Q : α → State → Share → Prop) :
    State → Share → Prop := (logic c).wp (system c.r c.contents) p Q

theorem wp_failed (hQ : ∀ value s, s.failures ≠ [] → Q value s n) {p : RestoreM α}
    (hfailed : s.failures ≠ []) : c.wp p Q s n := by
  induction p generalizing s with
  | ret value => exact fun s' hlater => hQ value s' fun h => hfailed (hlater.failures h)
  | act op next ih =>
    refine ⟨trivial, fun s₁ frame hlater _ result s' hexec => ?_⟩
    have hlater' := Later.of_exec hexec
    have hfailed' : s'.failures ≠ [] := fun h => hfailed (hlater.failures (hlater'.failures h))
    exact ⟨n, fun h => absurd h hfailed', hlater', ih result hfailed'⟩

theorem wp_step (hQ : ∀ value s, s.failures ≠ [] → Q value s n) {op : Op} {f : op.Res → RestoreM α}
    (h : ∀ s₁ frame, Later s s₁ → Sound c s₁ (m + frame) → ∀ result s',
      exec c.r c.contents op s₁ result s' → s'.failures = [] → ∃ m', Sound c s' (m' + frame) ∧
        c.wp (f result) Q s' m') : c.wp (perform op >>= f) Q s m := by
  refine wp_perform trivial fun s₁ frame hlater hinv result s' hexec => ?_
  have hlater' := Later.of_exec hexec
  by_cases hok : s'.failures = []
  · obtain ⟨m', hsound, hwp⟩ := h s₁ frame hlater (hinv (hlater'.failures hok)) result s' hexec hok
    exact ⟨m', fun _ => hsound, hlater', hwp⟩
  · exact ⟨n, fun h => absurd h hok, hlater', wp_failed hQ hok⟩

theorem wp_last {op : Op} {Q : op.Res → State → Share → Prop}
    (hQ : ∀ value s, s.failures ≠ [] → Q value s n)
    (h : ∀ s₁ frame, Later s s₁ → Sound c s₁ (m + frame) → ∀ result s',
      exec c.r c.contents op s₁ result s' → s'.failures = [] →
      ∃ m', Sound c s' (m' + frame) ∧ ∀ s'', Later s' s'' → Q result s'' m') :
    c.wp (perform op) Q s m := wp_step (f := pure) hQ h

theorem wp_seq {p : RestoreM β} {P : β → State → Share → Prop} {f : β → RestoreM α}
    (hp : c.wp p P s m) (hf : ∀ value s' m', Later s s' → P value s' m' →
      c.wp (f value) Q s' m') : c.wp (p >>= f) Q s m := wp_bind (wp_mono hp hf)

theorem wp_panicked : c.wp (panicked : RestoreM α) Q s m :=
  ⟨trivial, fun _ _ _ _ _ _ hexec => hexec.elim⟩

theorem wp_fail (hQ : ∀ value s, s.failures ≠ [] → Q value s n) {failure : Failure}
    {f : Unit → RestoreM α} : c.wp (perform (.fail failure) >>= f) Q s m := by
  refine wp_step hQ fun s₁ frame _ _ _ s' hexec hok => ?_
  cases hexec
  simp [State.fail] at hok

/-- The program owns `n` in the end, and has failed if it returns a failure. -/
def Finishes (n : Share) (result : Option Failure) (s : State) (m : Share) : Prop :=
  m = n ∧ (result ≠ none → s.failures ≠ [])

theorem finishes_failed (n : Share) (result : Option Failure) (s : State)
    (h : s.failures ≠ []) : Finishes n result s n := ⟨rfl, fun _ => h⟩

theorem finishes_none (n : Share) (s : State) : Finishes n none s n := ⟨rfl, fun h => absurd rfl h⟩

theorem wp_beside {p : RestoreM (Option Failure)} (rest : Share) (h : c.wp p (Finishes n) s m) :
    c.wp p (Finishes (n + rest)) s (m + rest) := by
  refine wp_mono (wp_frame h trivial) ?_
  rintro value s' _ _ ⟨used, rfl, rfl, hfailed⟩
  exact ⟨rfl, hfailed⟩

/-! ## Writing one place -/

section Place

variable {use : Use} (huse : c.IsPlace use)
include huse

theorem wp_writeAndRelease {wr : Nat} (hlookup : s.fs.lookup (c.path use.file) = some wr) : c.wp
      (writeAndRelease use.file wr (c.plaintext use.blob.id) use.fileOffset)
      (Finishes 0) s (0, 0, {use.file}, {use}) := by
  refine wp_step (finishes_failed 0) fun s₁ frame hs₁ hsound result s' hexec hok => ?_
  obtain ⟨rfl, hwritten⟩ := hsound.write huse (hs₁.lookup _ _ hlookup) hexec hok
  refine ⟨_, hwritten, wp_last (finishes_failed 0) ?_⟩
  intro s₂ frame hs₂ hsound result s' hexec hok
  obtain ⟨rfl, hreleased⟩ := hsound.release huse.file_mem hexec hok
  exact ⟨0, hreleased, fun s _ => finishes_none 0 s⟩

theorem wp_writeToFile_created (hcreated : Created s.events use.file) : c.wp
      (writeToFile use.file (c.plaintext use.blob.id) use.fileOffset (-1))
      (Finishes 0) s (0, 0, 0, {use}) := by
  refine wp_step (finishes_failed 0) fun s₁ frame hs₁ hsound result s' hexec hok => ?_
  obtain ⟨wr, rfl, hlookup, hopened⟩ := hsound.reopen huse.file_mem
    (hcreated.mono hs₁.events) hexec hok
  exact ⟨_, hopened, wp_writeAndRelease huse hlookup⟩

theorem wp_writeToFile_new (hstarted : s.inProgress use.file) : c.wp
      (writeToFile use.file (c.plaintext use.blob.id) use.fileOffset use.file.size)
      (Finishes ({use.file}, 0, 0, 0)) s (0, {use.file}, 0, {use}) := by
  refine wp_step (finishes_failed _) fun s₁ frame hs₁ hsound result s' hexec hok => ?_
  obtain ⟨wr, rfl, hlookup, hopened⟩ := hsound.create huse.file_mem
    (hs₁.progress _ hstarted) hexec hok
  refine ⟨_, hopened, ?_⟩
  -- the lock is held until the end
  have hheld := wp_beside ({use.file}, 0, 0, 0) (wp_writeAndRelease huse hlookup)
  simpa using hheld

theorem wp_writePlace : c.wp (writePlace (c.plaintext use.blob.id) use) (Finishes 0) s
      (0, 0, 0, {use}) := by
  refine wp_step (finishes_failed 0) fun s₁ frame hs₁ hsound _ s' hexec hok => ?_
  obtain ⟨hfree, rfl⟩ := hexec
  refine ⟨_, hsound.lock hfree, wp_step (finishes_failed 0)
    fun _ frame _ hsound result s₂ hexec hok => ?_⟩
  obtain ⟨rfl, rfl⟩ := hexec
  cases hprogress : s₂.inProgress use.file with
  | true =>
    have hcreated := hsound.created hprogress
    refine ⟨_, hsound, wp_step (finishes_failed 0) fun s₃ frame hs₃ hsound _ s' hexec hok => ?_⟩
    cases hexec
    exact ⟨_, hsound.unlock, wp_writeToFile_created huse (hcreated.mono hs₃.events)⟩
  | false =>
    refine ⟨_, hsound.notInProgress hprogress, wp_step (finishes_failed 0)
      fun s₃ frame hs₃ hsound _ s' hexec hok => ?_⟩
    cases hexec
    refine ⟨_, hsound.setInProgress, wp_seq (wp_writeToFile_new huse (Function.update_self ..)) ?_⟩
    rintro result s₄ _ hs₄ ⟨rfl, hfailed⟩
    refine wp_step (finishes_failed 0) fun s₅ frame hs₅ hsound _ s' hexec hok => ?_
    cases hexec
    refine ⟨0, hsound.unlock, wp_pure fun s₆ hs₆ => ⟨rfl, ?_⟩⟩
    exact fun hresult h => hfailed hresult (hs₅.failures (hs₆.failures h))

end Place

/-! ## Writing all places -/

/-- The program owns nothing in the end unless it returns a failure. -/
def Completes (result : Option Failure) (s : State) (m : Share) : Prop :=
  (result = none → m = 0) ∧ (result ≠ none → s.failures ≠ [])

theorem completes_failed (result : Option Failure) (s : State)
    (h : s.failures ≠ []) : Completes result s 0 := ⟨fun _ => rfl, fun _ => h⟩

theorem wp_writePlaces {places : List Use} {data : Bytes}
    (hplaces : ∀ use ∈ places, c.IsPlace use ∧ c.plaintext use.blob.id = data) :
    c.wp (effects.writePlaces c.r data places) Completes s (0, 0, 0, (places : Multiset Use)) := by
  induction places generalizing s with
  | nil => exact wp_pure fun s _ => ⟨fun _ => rfl, fun h => absurd rfl h⟩
  | cons use places ih =>
    rw [forall_mem_cons] at hplaces
    obtain ⟨⟨huse, rfl⟩, hrest⟩ := hplaces
    have hfirst := wp_beside (0, 0, 0, (places : Multiset Use)) (wp_writePlace huse (s := s))
    rw [show ((0, 0, 0, {use}) + (0, 0, 0, (places : Multiset Use)) : Share) =
      (0, 0, 0, ((use :: places : List Use) : Multiset Use)) by simp, zero_add] at hfirst
    refine wp_seq hfirst ?_
    rintro result s' _ hs' ⟨rfl, hfailed⟩
    cases hresult : c.r.sanitizeError use.file result with
    | some failure =>
      refine wp_pure fun s'' hs'' => ⟨nofun, fun _ h => ?_⟩
      refine hfailed ?_ (hs''.failures h)
      rintro rfl
      cases hresult
    | none => exact ih hrest

private theorem wp_writePlaces_then {places : List Use} {data : Bytes}
    {others : Multiset Use} {rest : RestoreM (Option Failure)}
    (hplaces : ∀ use ∈ places, c.IsPlace use ∧ c.plaintext use.blob.id = data)
    (hrest : ∀ s, c.wp rest Completes s (0, 0, 0, others)) : c.wp
      (do match ← effects.writePlaces c.r data places with
        | some failure => return some failure
        | none => rest) Completes s (0, 0, 0, (places : Multiset Use) + others) := by
  have hfirst := wp_frame (wp_writePlaces hplaces (s := s))
    (show (logic c).busy (0, 0, 0, others) from trivial)
  rw [show ((0, 0, 0, (places : Multiset Use)) + (0, 0, 0, others) : Share) =
    (0, 0, 0, (places : Multiset Use) + others) by simp] at hfirst
  refine wp_seq hfirst ?_
  rintro result s' _ hs' ⟨used, rfl, hused, hfailed⟩
  cases result with
  | some failure =>
    refine wp_pure fun s'' hs'' => ⟨nofun, fun _ h => ?_⟩
    exact hfailed (by simp) (hs''.failures h)
  | none =>
    rw [hused rfl, zero_add]
    exact hrest s'

variable {uses : List Use} {pack : PackInfo}

private theorem places_cons {id : ID} {ids : List ID} (h : id ∉ ids) :
    ((uses.filter (·.blob.id ∈ id :: ids) : List Use) : Multiset Use) =
      (uses.filter (·.blob.id = id) : List Use) + (uses.filter (·.blob.id ∈ ids) : List Use) := by
  have hnone : (uses : Multiset Use).filter
      (fun use => use.blob.id = id ∧ use.blob.id ∈ ids) = 0 := by
    rw [Multiset.filter_eq_nil]
    rintro use _ ⟨rfl, hmem⟩
    exact h hmem
  simp only [← Multiset.filter_coe, mem_cons]
  rw [Multiset.filter_add_filter, hnone, add_zero]

theorem wp_restoreBlobs {blobs : List Blob} {stream : Bytes} {currentBlobEnd : Nat}
    (huses : ∀ use ∈ uses, c.IsPlace use) (hids : (blobs.map (·.id)).Nodup)
    (hread : ∀ blob ∈ blobs, c.r.Readable stream blob blob.offset (c.plaintext blob.id)) : c.wp
      (effects.restoreBlobs c.r uses blobs (stream.drop currentBlobEnd) currentBlobEnd) Completes s
      (0, 0, 0, (uses.filter (·.blob.id ∈ blobs.map (·.id)) : List Use)) := by
  induction blobs generalizing currentBlobEnd s with
  | nil => exact wp_pure fun s _ => ⟨by simp, fun h => absurd rfl h⟩
  | cons blob blobs ih =>
    rw [map_cons, nodup_cons] at hids
    rw [forall_mem_cons] at hread
    obtain ⟨⟨hlength, hdecrypt⟩, hrest⟩ := hread
    rw [Effects.restoreBlobs]
    split
    · exact wp_fail completes_failed
    · rename_i hoffset
      have hskip : (stream.drop currentBlobEnd).drop
          (blob.offset - currentBlobEnd) = stream.drop blob.offset := by
        rw [drop_drop]
        congr 1
        omega
      split
      · exact wp_fail completes_failed
      · dsimp only
        rw [hskip]
        split
        · exact wp_fail completes_failed
        · rw [slice] at hdecrypt
          rw [hdecrypt]
          refine wp_step completes_failed fun s₁ frame hs₁ hsound places s' hexec hok => ?_
          obtain ⟨hperm, rfl⟩ := hexec
          refine ⟨_, hsound, ?_⟩
          rw [map_cons, places_cons hids.1, ← Multiset.coe_eq_coe.mpr hperm, drop_drop]
          refine wp_writePlaces_then (fun use huse => ?_) fun s => ih hids.2 hrest
          have hmem := mem_filter.mp (hperm.mem_iff.mp huse)
          exact ⟨huses use hmem.1, by rw [of_decide_eq_true hmem.2]⟩

/-! ## The workers -/

theorem wp_loaded (hpack : pack ∈ c.packs) {files : List FileInfo}
    (huses : c.r.allUses pack.id files = .ok uses) (hplaces : uses.Perm (placesOf c.r pack)) : c.wp
      (effects.restoreBlobs c.r uses (FileRestorer.sortedBlobs uses)
        (slice (c.contents pack.id) (FileRestorer.rangeStart uses)
          (FileRestorer.rangeEnd uses - FileRestorer.rangeStart uses))
        (FileRestorer.rangeStart uses)) Completes s (0, 0, 0, (uses : Multiset Use)) := by
  have hstream : slice (c.contents pack.id) (FileRestorer.rangeStart uses)
      (FileRestorer.rangeEnd uses - FileRestorer.rangeStart uses) =
        ((c.contents pack.id).take (FileRestorer.rangeEnd uses)).drop
          (FileRestorer.rangeStart uses) := drop_take.symm
  have hall : (uses : Multiset Use) = (uses.filter (·.blob.id ∈
      (FileRestorer.sortedBlobs uses).map (·.id)) : List Use) := by
    rw [filter_eq_self.mpr]
    intro use huse
    exact decide_eq_true (mem_map_of_mem (mem_sortedBlobs.mpr ⟨use, huse, rfl⟩))
  rw [hstream, hall]
  refine wp_restoreBlobs (fun use huse => ⟨pack, hpack, hplaces.mem_iff.mp huse⟩)
    (sortedBlobs_ids_nodup huses) fun blob hblob => ?_
  obtain ⟨use, huse, rfl⟩ := mem_sortedBlobs.mp hblob
  exact readable_take_iff.mpr ⟨c.intact pack hpack use (hplaces.mem_iff.mp huse), le_rangeEnd huse⟩

theorem allUses_eq {r : FileRestorer} {packID : ID} {files : List FileInfo}
    (h : r.allUses packID files = .ok uses) :
    uses = files.flatMap fun file => ((r.fileUses packID file).toOption).getD [] := by
  induction files generalizing uses with
  | nil =>
    cases h
    rfl
  | cons file files ih =>
    simp only [FileRestorer.allUses] at h
    split at h
    · cases h
    · rename_i first hfirst
      split at h
      · cases h
      · rename_i rest hrest
        cases h
        rw [flatMap_cons, ← ih hrest, hfirst]
        rfl

def OwnsNothing (_ : α) (_ : State) (m : Share) : Prop := m = 0

theorem ownsNothing_failed (value : α) (s : State) (_ : s.failures ≠ []) :
    OwnsNothing value s 0 := rfl

theorem wp_reportFailure {failure : Failure} (hfailed : s.failures ≠ []) :
    c.wp (effects.reportFailure c.r pack failure)
      OwnsNothing s m := by
  refine wp_step ownsNothing_failed fun s₁ frame hs₁ _ files s' hexec hok => ?_
  exact absurd (hs₁.failures ((Later.of_exec hexec).failures hok)) hfailed

theorem wp_downloadPack (hpack : pack ∈ c.packs) : c.wp (downloadPack c.r pack)
      OwnsNothing s (0, 0, 0, (placesOf c.r pack : Multiset Use)) := by
  refine wp_step ownsNothing_failed fun s₁ frame _ hsound files s' hexec _ => ?_
  obtain ⟨hperm, rfl⟩ := hexec
  refine ⟨_, hsound, ?_⟩
  cases huses : c.r.allUses pack.id files with
  | error failure => exact wp_panicked
  | ok uses =>
    have hplaces : uses.Perm (placesOf c.r pack) := by
      rw [allUses_eq huses]
      exact hperm.flatMap_right _
    refine wp_step ownsNothing_failed fun s₂ frame _ hsound result s' hexec hok => ?_
    rcases hexec with ⟨rfl, rfl⟩ | ⟨failure, rfl, rfl⟩
    · refine ⟨_, hsound, ?_⟩
      rw [← Multiset.coe_eq_coe.mpr hplaces]
      refine wp_seq (wp_loaded hpack huses hplaces) ?_
      rintro result s' m' _ ⟨hnone, hfailed⟩
      cases result with
      | some failure => exact wp_reportFailure (hfailed (by simp))
      | none => exact wp_pure fun _ _ => hnone rfl
    · simp [State.fail] at hok

theorem wp_worker : c.wp (worker c.r) (Logic.loopPost (· = 0) OwnsNothing) s 0 := by
  have hQ : ∀ value s, s.failures ≠ [] → loopPost (· = 0)
      (OwnsNothing : Option Failure → State → Share → Prop) value s 0 := by
    intro value s _
    cases value <;> rfl
  refine wp_step hQ fun s₁ frame _ hsound received s' hexec _ => ?_
  rcases hexec with ⟨pack, rest, -, hunsent, rfl, rfl⟩ | ⟨-, rfl, rfl⟩
  · have hpack := hsound.sent.unsent (by rw [hunsent]; exact mem_cons_self)
    refine ⟨_, hsound.receive hunsent, wp_seq (wp_downloadPack hpack) ?_⟩
    rintro result s' _ _ rfl
    cases result with
    | some failure | none => exact wp_pure fun _ _ => rfl
  · exact ⟨0, hsound, wp_pure fun _ _ => rfl⟩

end Programs

/-! ## Whole runs -/

section Runs

variable {c : Setting}

theorem Sound.send {s s' : State} {n : Share} (h : Sound c s n)
    (hsend : send s s') : Sound c s' n := by
  obtain ⟨-, ⟨hunsent, rfl⟩ | ⟨-, rfl⟩⟩ := hsend
  · exact ⟨{ h.files with }, { h.locks with }, h.handles.mono rfl rfl
      (.of_unchanged rfl rfl rfl fun _ => id), h.sent.unsent, fun _ => hunsent, h.sent.packs⟩
  · exact ⟨{ h.files with }, { h.locks with }, h.handles.mono rfl rfl
      (.of_unchanged rfl rfl rfl fun _ => id), h.sent.unsent, nofun, h.sent.packs⟩

theorem Later.of_send {s s' : State} (h : send s s') : Later s s' := by
  obtain ⟨-, ⟨-, rfl⟩ | ⟨-, rfl⟩⟩ := h <;> exact .of_unchanged rfl rfl rfl fun _ => id

theorem sound_start {packs : Packs} {order : List ID}
    (hpacks : order.filterMap packs.packs.load = c.packs) :
    Sound c (start c.r packs order c.before).state 0 := by
  refine ⟨⟨rfl, .nil, nofun, nofun⟩, ⟨fun _ => rfl, fun _ _ => nofun, nofun⟩,
    ⟨fun file _ => ⟨rfl, fun _ => rfl, nofun⟩, nofun⟩, ?_, nofun, ?_⟩
  · exact fun pack hpack => hpacks ▸ hpack
  · intro pack hpack
    rw [← hpacks] at hpack
    exact Or.inl hpack

theorem sound_finished {packs : Packs} {order : List ID} {pool : Workers}
    (hpacks : order.filterMap packs.packs.load = c.packs)
    (hsteps : Relation.ReflTransGen (Pool.Step (system c.r c.contents))
      (start c.r packs order c.before) pool) {results : Fin workerCount → Option Failure}
    (hfinished : pool.Finished results) (hok : pool.state.failures = []) :
    Sound c pool.state 0 := by
  have hstart : (logic c).PoolSafe (system c.r c.contents) (fun _ => (· = 0))
      (fun _ => OwnsNothing) (start c.r packs order c.before) := by
    refine ⟨fun _ => 0, fun _ => ?_, fun i => ?_⟩
    · rw [Finset.sum_const_zero]
      exact sound_start hpacks
    · refine .loop_forever ?_ rfl
      rintro _ rfl
      exact wp_worker
  have hsafe := (hstart.steps (fun s s' n hinv hsend =>
    ⟨fun h => (hinv ((Later.of_send hsend).failures h)).send hsend, Later.of_send hsend⟩) hsteps).1
  obtain ⟨own, hinv, hown⟩ := hsafe.finished hfinished
  have hzero : ∑ i, own i = 0 := Finset.sum_eq_zero fun i _ => hown i
  rw [hzero] at hinv
  exact hinv hok

end Runs

end Rapi.Restorer.RestoreFiles
