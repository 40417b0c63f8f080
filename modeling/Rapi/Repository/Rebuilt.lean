import Rapi.Pack.RoundTrip
import Rapi.Repository.LoadIndex
import Rapi.Repository.RebuildIndex
import Rapi.Repository.SaveAll

/-!
# A rebuilt index is complete

The index that `CreateIndexFromPacks` makes from the packs of a repository is
saved and loaded again.  What is listed in the headers of the packs arrives, as
long as the offsets fit into the index.
-/

namespace Rapi.Repository

open Foundation Restic Rebuild List

def currentFiles (files : List (ID × JsonIndex)) : List (ID × IndexFile) :=
  files.map fun file => (file.1, .current file.2)

section Saved

variable {mi : MasterIndex} {existing : List ID} {packBlacklist : Finset ID}
  {extraObsolete : List ID} {obsolete : Finset ID} {saved : SaveAll.State}
  {files : List (ID × JsonIndex)}

theorem mem_loaded_iff (hsaved : mi.SaveReturns existing packBlacklist extraObsolete obsolete saved)
    (hcancelled : saved.cancelled = false) (hfiles : files.Perm saved.indexFiles)
    {pb : PackedBlob} :
    (∃ file ∈ currentFiles files, pb ∈ file.2.listed) ↔ pb ∈ mi.kept packBlacklist := by
  rw [← saveReturns_listed hsaved hcancelled, mem_sum_map]
  constructor
  · rintro ⟨_, hmem, hpb⟩
    obtain ⟨file, hfile, rfl⟩ := mem_map.mp hmem
    exact ⟨file, hfiles.mem_iff.mp hfile, hpb⟩
  · rintro ⟨file, hfile, hpb⟩
    exact ⟨_, mem_map.mpr ⟨file, hfiles.mem_iff.mpr hfile, rfl⟩, hpb⟩

end Saved

section Rebuilt

variable {c : Config} {packs : List FileInfo} {seed seed' : BlobType → ID → Nat}
  {now now' n : Nat} {s : State}

theorem content_insert_new (idx : Index) :
    ((MasterIndex.new seed now).insert idx).content = idx.content := by
  simp [MasterIndex.content, MasterIndex.insert, MasterIndex.new]

theorem kept_insert_new {idx : Index} (hfinal : idx.final = false) (packBlacklist : Finset ID) :
    ((MasterIndex.new seed now).insert idx).kept packBlacklist = idx.content := by
  simp [MasterIndex.kept, MasterIndex.idx, MasterIndex.insert, MasterIndex.new, Index.kept, hfinal]

theorem fits_of_mem_entries (hfits : ∀ fi ∈ packs, c.Fits fi) {pb : PackedBlob}
    (hpb : pb ∈ packs.flatMap c.entries) :
    pb.offset ≤ Index.maxuint32 ∧ pb.length ≤ Index.maxuint32 := by
  obtain ⟨fi, hfi, hpb⟩ := mem_flatMap.mp hpb
  unfold Config.entries at hpb
  split at hpb
  · cases hpb
  · rename_i entries hdrSize hlist
    obtain ⟨b, hb, rfl⟩ := mem_map.mp hpb
    exact (hfits fi hfi).bounds hlist b hb

theorem rebuilt_index (hnodup : (packs.map (·.id)).Nodup)
    (hfits : ∀ fi ∈ packs, c.Fits fi)
    (hreach : ReachesIn (step c) Anything (start packs (.new seed now)) n s) :
    n ≤ 4 * packs.length + 11 ∧
    (¬ s.Ended → ∃ e t, step c s e = some t) ∧
    (s.Ended →
      let (invalid, mi) := s.result (.new seed' now')
      invalid.Nodup ∧
      (∀ id, id ∈ invalid ↔ ∃ fi ∈ packs, fi.id = id ∧ c.readable fi = false) ∧
      mi.content = (packs.flatMap c.entries : List PackedBlob) ∧
      ∀ existing packBlacklist extraObsolete obsolete saved,
        mi.SaveReturns existing packBlacklist extraObsolete obsolete saved →
        saved.cancelled = false → ∀ files, files.Perm saved.indexFiles → ∀ seed now,
          (∃ loaded, (MasterIndex.new seed now).LoadIndex (currentFiles files) loaded) ∧
          ∀ loaded, (MasterIndex.new seed now).LoadIndex (currentFiles files) loaded →
            (∀ pb, pb ∈ loaded.content ↔ pb ∈ mi.content) ∧
            ∀ id, (∃ pb ∈ loaded.content, pb.packID = id) ↔ ∃ pb ∈ mi.content, pb.packID = id) := by
  have h := reached_of_reachesIn hfits hreach
  refine ⟨(Nat.le_add_right _ _).trans h.steps, h.sound.progress, fun hended => ?_⟩
  obtain ⟨hcontent, hinvalid⟩ := h.ended hended
  refine ⟨?_, ?_, (content_insert_new _).trans hcontent, ?_⟩
  · exact hinvalid.nodup_iff.mpr (hnodup.sublist (filter_sublist.map _))
  · intro id
    simp only [hinvalid.mem_iff, mem_map, mem_filter, and_assoc,
      Bool.not_eq_true', and_comm (a := _ = id)]
  · intro existing packBlacklist extraObsolete obsolete saved hsaved hcancelled
      files hfiles seed₁ now₁
    have hmem : ∀ pb, (∃ file ∈ currentFiles files, pb ∈ file.2.listed) ↔ pb ∈ s.idx.content := by
      intro pb
      rw [mem_loaded_iff hsaved hcancelled hfiles]
      exact iff_of_eq (congrArg (pb ∈ ·) (kept_insert_new h.sound.notFinal packBlacklist))
    refine ⟨MasterIndex.exists_loadIndex _ fun file hfile pb hpb => ?_, ?_⟩
    · have hpb := (hmem pb).mp ⟨file, hfile, hpb⟩
      rw [hcontent] at hpb
      exact fits_of_mem_entries hfits hpb
    · intro loaded hloaded
      have hsame : ∀ pb, pb ∈ loaded.content ↔
          pb ∈ ((MasterIndex.new seed' now').insert s.idx).content := by
        intro pb
        rw [(MasterIndex.loadIndex_spec hloaded).2.2, hmem, content_insert_new]
      refine ⟨hsame, fun id => ?_⟩
      simp only [hsame]

theorem panics_of_storePack {fi : FileInfo} {entries : List Blob} {hdrSize : Nat} (idx : Index)
    (i : Fin listPackParallelism) (hlist : c.listPack fi = .ok (entries, hdrSize))
    (hstore : idx.storePack fi.id entries = none) :
    ∃ s, ReachesIn (step c) Anything (start [fi] idx) 3 s ∧ s.panicked := by
  let sent := (start [] idx).set i (.listing fi)
  let listed := sent.set i (.storing fi entries)
  have hsend : step c (start [fi] idx) (.send i) = some sent := rfl
  have hlisted : step c sent (.list i) = some listed := by
    simp [step, start, hlist, sent, listed]
    rfl
  have hstored : step c listed (.store i) = some { listed with panicked := true } := by
    simp [step, start, hstore, State.set, sent, listed]
  exact ⟨_, ((ReachesIn.refl.next trivial hsend).next trivial hlisted).next trivial hstored, rfl⟩

end Rebuilt

/-! ## Sample packs -/

section Samples

open Crypto Pack

/-- The third blob is `2 * n` bytes into the pack. -/
def wideAdditions (n : Nat) : List Addition :=
  [⟨.data, .ofNat 1, List.replicate n 0⟩, ⟨.data, .ofNat 2, List.replicate n 0⟩,
    ⟨.data, .ofNat 3, [7]⟩]

def sampleConfig (additions : List Addition) : Config where
  key := sampleKey
  be id := if id = .ofNat 2 then packFile sampleKey sampleNonce additions else []

def samplePack (additions : List Addition) : FileInfo :=
  ⟨.ofNat 2, (packFile sampleKey sampleNonce additions).length⟩

theorem listPack_samplePack {additions : List Addition} (hne : additions ≠ [])
    (htype : ∀ a ∈ additions, a.type ≠ .invalid) (hlength : ∀ a ∈ additions, a.data.length < 2 ^ 32)
    (hheader : additions.length * entrySize + extension ≤ maxHeaderSize) :
    (sampleConfig additions).listPack (samplePack additions) = .ok (entriesFrom 0 additions,
        headerLengthSize + (additions.length * entrySize + extension)) := by
  simp only [Config.listPack, sampleConfig, samplePack, if_pos]
  exact list_packFile hne htype hlength hheader

theorem wide_pack_panics :
    ∃ s, ReachesIn (step (sampleConfig (wideAdditions (2 ^ 31)))) Anything
        (start [samplePack (wideAdditions (2 ^ 31))] (.new (fun _ _ => 0) 0))
        3 s ∧
      ¬ s.Ended ∧
      ∀ e, step (sampleConfig (wideAdditions (2 ^ 31))) s e = none := by
  generalize hn : 2 ^ 31 = n
  have hlist := @listPack_samplePack (wideAdditions n) nofun
    (by simp [wideAdditions]) (by simp [wideAdditions]; omega)
    (by simp only [wideAdditions, length_cons, length_nil]; decide)
  have hthird : ⟨⟨.ofNat 3, .data⟩, 1, 0 + n + n⟩ ∈ entriesFrom 0 (wideAdditions n) := by
    simp [entriesFrom, wideAdditions]
  obtain ⟨s, hreach, hpanicked⟩ := panics_of_storePack (.new (fun _ _ => 0) 0)
    ⟨0, by decide⟩ hlist (Index.storePack_eq_none hthird (by
      simp only [Index.maxuint32]
      omega) _)
  refine ⟨s, hreach, fun hended => ?_, fun e => ?_⟩
  · simp [hended.panicked] at hpanicked
  · simp [step, hpanicked]

/-- A sound pack beside an empty file. -/
theorem rebuilt_index_damaged :
    ∃ n s, ReachesIn (step (sampleConfig sampleAdditions)) Anything
        (start [⟨.ofNat 1, 0⟩, samplePack sampleAdditions]
          (.new (fun _ _ => 0) 0)) n s ∧
      s.Ended ∧
      (∀ id, id ∈ s.invalid ↔ id = .ofNat 1) ∧
      (s.result (.new (fun _ _ => 0) 0)).2.content =
        ((entriesFrom 0 sampleAdditions).map
          (Index.packed (.ofNat 2)) : List PackedBlob) := by
  let c := sampleConfig sampleAdditions
  let packs : List FileInfo := [⟨.ofNat 1, 0⟩, samplePack sampleAdditions]
  have hlist := @listPack_samplePack sampleAdditions nofun (by decide) (by decide) (by decide)
  obtain ⟨err, hempty⟩ : ∃ err, c.listPack ⟨.ofNat 1, 0⟩ = .error err := by
    have hid : ¬ ID.ofNat 1 = ID.ofNat 2 := by decide
    simp only [Config.listPack, c, sampleConfig, if_neg hid]
    exact ⟨_, rfl⟩
  have hfits : ∀ fi ∈ packs, c.Fits fi := by
    simp only [packs, forall_mem_cons]
    refine ⟨fun entries hdrSize h => ?_, fun entries hdrSize h => ?_, nofun⟩
    · rw [hempty] at h
      cases h
    · rw [hlist] at h
      cases h
      decide
  obtain ⟨n, s, hreach, hended⟩ := @exists_run c packs (fun _ _ => 0) 0 hfits
  obtain ⟨-, hinvalid, hcontent, -⟩ :=
    (@rebuilt_index c packs _ (fun _ _ => 0) _ 0 n s (by decide) hfits hreach).2.2 hended
  refine ⟨n, s, hreach, hended, fun id => ?_, hcontent.trans ?_⟩
  · rw [hinvalid]
    simp [packs, Config.readable, hempty, hlist, c, Except.isOk, Except.toBool]
    exact eq_comm
  · simp [packs, Config.entries, hempty, hlist, c]
    exact .refl _

end Samples

end Rapi.Repository
