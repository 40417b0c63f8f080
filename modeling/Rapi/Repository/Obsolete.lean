import Rapi.Repository.LoadIndex
import Rapi.Repository.SaveAll
import Rapi.Repository.SavedIndexes

/-!
# The obsolete index files

A session loads the index, makes any calls, and saves the master index as a
whole.  The set of obsolete index files that is returned then has the files of
the current format that were loaded, and no others: the ID under which an index
was written during the session is not kept.
-/

namespace Rapi.Repository

open Foundation Restic List

/-! ## The IDs that the master index knows -/

/-- Only the first index has IDs. -/
def MasterIndex.HasIDs (mi : MasterIndex) (ids : List ID) : Prop :=
  mi.first.ids = ids ∧ ∀ idx ∈ mi.rest, idx.ids = []

namespace MasterIndex

variable {mi mi' : MasterIndex} {ids : List ID}

private theorem storeInto_ids {id : ID} {blobs : List Blob} {newIdx : Index}
    {rest rest' : List Index} (hnew : newIdx.ids = []) (hrest : ∀ idx ∈ rest, idx.ids = [])
    (h : storeInto id blobs newIdx rest = some rest') : ∀ idx ∈ rest', idx.ids = [] := by
  induction rest generalizing rest' with
  | nil =>
    obtain ⟨stored, hstored, rfl⟩ := Option.map_eq_some_iff.mp h
    simp [Index.ids_storePack hstored, hnew]
  | cons idx rest ih =>
    rw [forall_mem_cons] at hrest
    rw [storeInto] at h
    split at h
    · obtain ⟨stored, hstored, rfl⟩ := Option.map_eq_some_iff.mp h
      exact forall_mem_cons.mpr ⟨hrest.1, ih hrest.2 hstored⟩
    · obtain ⟨stored, hstored, rfl⟩ := Option.map_eq_some_iff.mp h
      refine forall_mem_cons.mpr ⟨?_, hrest.2⟩
      rw [Index.ids_storePack hstored, hrest.1]

theorem HasIDs.storePack (hids : mi.HasIDs ids) {id : ID} {blobs : List Blob} {newIdx : Index}
    (hnew : newIdx.ids = []) (h : mi.storePack id blobs newIdx = some mi') : mi'.HasIDs ids := by
  obtain ⟨rest, hrest, rfl⟩ := Option.map_eq_some_iff.mp h
  exact ⟨hids.1, storeInto_ids hnew hids.2 hrest⟩

theorem HasIDs.finalizeIf (hids : mi.HasIDs ids) {condition : Index → Bool} {chosen : List Index}
    (h : mi.finalizeIf condition = (chosen, mi')) : mi'.HasIDs ids := by
  cases h
  refine ⟨hids.1, fun _ hmem => ?_⟩
  obtain ⟨idx, hidx, rfl⟩ := mem_map.mp hmem
  split <;> exact hids.2 idx hidx

theorem HasIDs.filter_final (hids : mi.HasIDs ids) :
    (mi.idx.filter (·.final)).flatMap (·.ids) = ids := by
  rw [idx, filter_cons_of_pos mi.first_final, flatMap_cons, hids.1,
    flatMap_eq_nil_iff.mpr, append_nil]
  exact fun idx hidx => hids.2 idx (mem_filter.mp hidx).1

theorem HasIDs.mergeFinalIndexes (hids : mi.HasIDs ids)
    (h : mi.mergeFinalIndexes = .ok mi') : mi'.HasIDs ids := by
  obtain ⟨hrest, hfirst, -⟩ := mergeFinalIndexes_fields h
  refine ⟨by rw [hfirst, hids.filter_final], fun idx hidx => ?_⟩
  rw [hrest] at hidx
  exact hids.2 idx (mem_filter.mp hidx).1

end MasterIndex

private theorem exec_hasIDs {ids : List ID} (op : Op) (s : RepoState) (res : op.Res)
    (s' : RepoState) (hids : s.idx.HasIDs ids) (h : exec op s res s') : s'.idx.HasIDs ids := by
  cases op with
  | panic => exact h.elim
  | newRandomNonce | systemFault | unlockPackers =>
    cases h
    exact hids
  | writeFault | seekFault | insertPacker =>
    obtain ⟨-, rfl⟩ := h
    exact hids
  | lockPackers =>
    obtain ⟨-, -, rfl⟩ := h
    exact hids
  | findPacker =>
    obtain ⟨-, h⟩ := h
    split at h <;> rw [h.2] <;> exact hids
  | savePack => rcases h with ⟨-, -, -, rfl⟩ | ⟨-, rfl | ⟨-, part, rfl⟩⟩ <;> exact hids
  | saveIndexFile => rcases h with ⟨id, -, rfl⟩ | ⟨-, rfl⟩ <;> exact hids
  | addPending =>
    obtain ⟨mi, hadd, rfl⟩ := h
    obtain ⟨hfirst, hrest, -⟩ := MasterIndex.addPending_spec hadd
    exact ⟨hfirst ▸ hids.1, hrest ▸ hids.2⟩
  | storePack =>
    obtain ⟨seed, now, mi, hstore, rfl⟩ := h
    exact hids.storePack rfl hstore
  | finalizeFullIndexes =>
    obtain ⟨now, mi, hfinalize, rfl⟩ := h
    exact hids.finalizeIf hfinalize
  | finalizeNotFinalIndexes =>
    obtain ⟨mi, hfinalize, rfl⟩ := h
    exact hids.finalizeIf hfinalize
  | mergeFinalIndexes =>
    simp only [exec] at h
    split at h
    · rename_i mi hmerge
      rw [h.2]
      exact hids.mergeFinalIndexes hmerge
    · rw [h.2]
      exact hids

theorem History.hasIDs {r : Repo} {start s : RepoState} {ids : List ID}
    {done : List (Call × Option SaveError)} (h : History r start done s)
    (hstart : start.idx.HasIDs ids) : s.idx.HasIDs ids := by
  induction h with
  | nil => exact hstart
  | snoc _ hcall ih => exact Runs.invariant (P := fun s => s.idx.HasIDs ids) exec_hasIDs hcall ih

/-! ## Sessions -/

section Sessions

variable {r : Repo} {seed : BlobType → ID → Nat} {now : Nat}
  {files : List (ID × IndexFile)} {start s : RepoState}
  {done : List (Call × Option SaveError)} {packBlacklist obsolete : Finset ID}
  {extraObsolete : List ID} {t : SaveAll.State}

/-- The index files that there are before `Save`: those that were loaded and
those in the store. -/
def filesBefore (files : List (ID × IndexFile)) (s : RepoState) : List (ID × IndexFile) :=
  files ++ s.indexFiles.map fun file => (file.1, .current file.2)

theorem mem_currentIDs {id : ID} :
    id ∈ MasterIndex.currentIDs files ↔ ∃ file, (id, .current file) ∈ files := by
  simp only [MasterIndex.currentIDs, mem_flatMap]
  constructor
  · rintro ⟨⟨name, file | packs⟩, hfile, hid⟩
    · obtain rfl := mem_singleton.mp hid
      exact ⟨file, hfile⟩
    · cases hid
  · rintro ⟨file, hfile⟩
    exact ⟨_, hfile, mem_singleton_self _⟩

theorem mem_obsolete_iff (hload : (MasterIndex.new seed now).LoadIndex files start.idx)
    (hcalls : History r start done s)
    (hsave : s.idx.SaveReturns ((filesBefore files s).map Prod.fst)
      packBlacklist extraObsolete obsolete t) (hcancelled : t.cancelled = false) (id : ID) :
    id ∈ obsolete ↔ (∃ file, (id, .current file) ∈ files) ∨ id ∈ extraObsolete := by
  obtain ⟨hrest, hids, -⟩ := MasterIndex.loadIndex_spec hload
  have hstart : start.idx.HasIDs (MasterIndex.currentIDs files) := ⟨hids, by simp [hrest]⟩
  rw [(saveReturns_written hsave hcancelled).2, mem_toFinset,
    mem_append, SaveAll.obsoleteIDs, (hcalls.hasIDs hstart).filter_final, mem_currentIDs]

theorem obsolete_covers_session
    (hload : (MasterIndex.new seed now).LoadIndex files start.idx)
    (hcalls : History r start done s)
    (hsave : s.idx.SaveReturns ((filesBefore files s).map Prod.fst)
      packBlacklist extraObsolete obsolete t)
    (hcancelled : t.cancelled = false)
    (hknown : ∀ file ∈ filesBefore files s,
      (∃ other, (file.1, .current other) ∈ files) ∨ file.1 ∈ extraObsolete) :
    (∀ file ∈ filesBefore files s, file.1 ∈ obsolete) ∧
      ∀ remaining seed' now' mi,
        (∀ file ∈ remaining, file.1 ∉ obsolete ∧
          file ∈ filesBefore files s ++
            t.indexFiles.map fun file => (file.1, .current file.2)) →
        (MasterIndex.new seed' now').LoadIndex remaining mi →
        ∀ pb ∈ mi.content, pb.packID ∈ packBlacklist → s.idx.InOpen pb := by
  have hcovers : ∀ file ∈ filesBefore files s, file.1 ∈ obsolete :=
    fun file hfile => (mem_obsolete_iff hload hcalls hsave hcancelled _).mpr (hknown file hfile)
  refine ⟨hcovers, ?_⟩
  intro remaining seed' now' mi hremaining hreload pb hpb hblacklisted
  obtain ⟨-, -, hlisted⟩ := MasterIndex.loadIndex_spec hreload
  obtain ⟨file, hfile, hpb⟩ := (hlisted pb).mp hpb
  obtain ⟨hkept, hfile⟩ := hremaining file hfile
  -- all older files are deleted
  rcases mem_append.mp hfile with hold | hnew
  · exact absurd (hcovers file hold) hkept
  obtain ⟨written, hwritten, rfl⟩ := mem_map.mp hnew
  have hin : pb ∈ s.idx.kept packBlacklist := by
    rw [← saveReturns_listed hsave hcancelled]
    exact mem_sum_map.mpr ⟨written, hwritten, hpb⟩
  obtain ⟨idx, hidx, hpb⟩ := mem_sum_map.mp hin
  obtain ⟨hpb, hfinal⟩ := Multiset.mem_filter.mp hpb
  rcases mem_cons.mp hidx with rfl | hidx
  · exact absurd hblacklisted (hfinal s.idx.first_final)
  · refine ⟨idx, hidx, ?_, hpb⟩
    exact Bool.eq_false_iff.mpr fun h => hfinal h hblacklisted

end Sessions

def sampleFiles : List (ID × IndexFile) :=
  [(samplePackID, .current ⟨[], [⟨samplePackID, [⟨⟨samplePackID, .data⟩, 32, 0⟩]⟩]⟩)]

private theorem sampleFiles_saved : ∃ mi obsolete t,
      (MasterIndex.new (fun _ _ => 0) 0).LoadIndex sampleFiles mi ∧
      mi.SaveReturns ((filesBefore sampleFiles
        { sampleStart with idx := mi }).map Prod.fst) { samplePackID } []
        obsolete t ∧ t.cancelled = false :=
  ⟨_, { samplePackID }, (exists_saveReturns (SaveAll.playback _ fun _ => false) (saveTurns 1)
    (·.cancelled = false) (by decide +kernel)).imp fun _ hsaved =>
      ⟨⟨_, .cons ⟨fun _ _ => 0, 0, rfl⟩ .nil, rfl⟩, hsaved⟩⟩

theorem obsolete_covers_session_loaded :
    ∃ mi obsolete t,
      (MasterIndex.new (fun _ _ => 0) 0).LoadIndex sampleFiles mi ∧
      mi.SaveReturns ((filesBefore sampleFiles
        { sampleStart with idx := mi }).map Prod.fst) { samplePackID } []
        obsolete t ∧ samplePackID ∈ obsolete := by
  obtain ⟨mi, obsolete, t, hload, hsave, hcancelled⟩ := sampleFiles_saved
  refine ⟨mi, obsolete, t, hload, hsave, ?_⟩
  refine (@obsolete_covers_session sampleRepo _ _ _ { sampleStart with idx := mi }
    _ _ _ _ _ _ hload .nil hsave hcancelled ?_).1 _ mem_cons_self
  intro file hfile
  obtain rfl := mem_singleton.mp hfile
  exact Or.inl ⟨_, mem_cons_self⟩

private theorem sampleSaved_obsolete : ∃ s t, Runs system autoRepo.flush sampleSaved none s ∧
      s.idx.SaveReturns ((filesBefore [] s).map Prod.fst) ∅ [] ∅ t ∧
      t.cancelled = false ∧ ∃ file ∈ filesBefore [] s, ∃ pb ∈ file.2.listed,
        ∃ written ∈ t.indexFiles, pb ∈ written.2.listed := by
  obtain ⟨err, s, hflush, rfl, ⟨file, hfile, hpb⟩, hsave⟩ := exists_runs
    (playback Crypto.sampleNonce fun _ _ => none) autoRepo.flush sampleSaved
    (fun found => found.1 = none ∧
      (∃ file ∈ filesBefore [] found.2, samplePacked ∈ file.2.listed) ∧
      let pool := (found.2.idx.save ∅ []).play
        (SaveAll.playback ((filesBefore [] found.2).map Prod.fst) fun _ => false) (saveTurns 1)
      (∀ i, pool.result? i = some (i.elim ∅ fun _ => ∅, none)) ∧
        pool.state.cancelled = false ∧
        ∃ written ∈ pool.state.indexFiles, samplePacked ∈ written.2.listed) (by decide +kernel)
  obtain ⟨t, hreturns, hcancelled, written, hwritten, hagain⟩ :=
    exists_saveReturns _ _ (fun t => t.cancelled = false ∧
      ∃ written ∈ t.indexFiles, samplePacked ∈ written.2.listed) hsave
  exact ⟨s, t, hflush, hreturns, hcancelled, file, hfile, samplePacked, hpb, written,
    hwritten, hagain⟩

theorem not_obsolete_covers_session :
    ¬ ∀ (r : Repo) (seed : BlobType → ID → Nat) (now : Nat)
      (files : List (ID × IndexFile)) (start s : RepoState)
      (done : List (Call × Option SaveError))
      (packBlacklist obsolete : Finset ID) (extraObsolete : List ID)
      (t : SaveAll.State),
      (MasterIndex.new seed now).LoadIndex files start.idx →
      History r start done s →
      s.idx.SaveReturns ((filesBefore files s).map Prod.fst) packBlacklist
        extraObsolete obsolete t → t.cancelled = false →
      ∀ file ∈ filesBefore files s, (∃ pb ∈ file.2.listed,
        ∃ written ∈ t.indexFiles, pb ∈ written.2.listed) →
        file.1 ∈ obsolete := by
  intro hall
  obtain ⟨s, t, hflush, hsave, hcancelled, file, hfile, hagain⟩ := sampleSaved_obsolete
  have hcalls : History autoRepo sampleStart ([(sampleSave, none)] ++ [(.flush, none)]) s :=
    .snoc (.snoc .nil sampleStart_saved) hflush
  have hmem := hall autoRepo (fun _ _ => 0) 0 [] sampleStart s _ ∅ ∅ [] t
    ⟨[], .nil, rfl⟩ hcalls hsave hcancelled file hfile hagain
  cases hmem

end Rapi.Repository
