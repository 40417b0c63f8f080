import Rapi.Repository.IndexRoundTrip
import Rapi.Repository.SaveAll

/-!
# Packs with blobs of both types

A pack counts as mixed when one element of an index file lists blobs of both
types for it.  `Save` goes through the entries type by type and may begin a new
index at any time, so that the blobs of a mixed pack can get into two index
files; the pack is not recognised then.
-/

namespace Rapi.Repository

open Foundation Restic List

namespace MasterIndex

def isMixedPack (mi : MasterIndex) (packID : ID) : Bool :=
  mi.idx.any fun idx => packID ∈ idx.mixedPacks

variable {p : ID}

theorem isMixedPack_iff {mi : MasterIndex} :
    mi.isMixedPack p ↔ ∃ idx ∈ mi.idx, p ∈ idx.mixedPacks := by
  simp [isMixedPack]

/-! ## Merging -/

theorem mem_mixedPacks_mergeRest {first first' : Index} {rest rest' : List Index}
    (h : mergeRest first rest = .ok (first', rest')) :
    (p ∈ first'.mixedPacks ∨ ∃ idx ∈ rest', p ∈ idx.mixedPacks) ↔
      p ∈ first.mixedPacks ∨ ∃ idx ∈ rest, p ∈ idx.mixedPacks := by
  induction rest generalizing first rest' with
  | nil =>
    cases h
    rfl
  | cons idx rest ih =>
    rw [mergeRest] at h
    by_cases hfinal : idx.final
    · rw [if_pos hfinal] at h
      split at h
      · cases h
      · rename_i merged hmerge
        rw [ih h]
        unfold Index.merge at hmerge
        rw [if_pos hfinal] at hmerge
        cases hmerge
        simp only [mem_append, mem_cons, exists_eq_or_imp, or_assoc]
    · rw [if_neg hfinal] at h
      split at h
      · cases h
      · rename_i first₁ rest₁ hrest
        cases h
        have hrest := ih hrest
        simp only [mem_cons, exists_eq_or_imp]
        rw [or_left_comm, hrest, or_left_comm]

theorem isMixedPack_mergeFinalIndexes {mi mi' : MasterIndex} (h : mi.mergeFinalIndexes = .ok mi') :
    mi'.isMixedPack p ↔ mi.isMixedPack p := by
  rw [isMixedPack_iff, isMixedPack_iff]
  unfold mergeFinalIndexes at h
  split at h
  · cases h
  · rename_i first rest hrest
    cases h
    simpa [idx] using mem_mixedPacks_mergeRest hrest

/-! ## Loading -/

/-- The index files are decoded and inserted, but not merged. -/
def Inserts (mi : MasterIndex) (files : List (ID × JsonIndex)) (mi' : MasterIndex) : Prop :=
  ∃ idxs, List.Forall₂ (fun (file : ID × JsonIndex) idx => ∃ seed now,
      Index.decode (.new seed now) file.1 (.current file.2) = some idx) files idxs ∧
    mi' = idxs.foldl insert mi

def listedBy (files : List (ID × JsonIndex)) : Multiset PackedBlob :=
  (files.map fun file => file.2.listed).sum

/-- One element of a file lists blobs of both types. -/
def ListedTogether (files : List (ID × JsonIndex)) (p : ID) : Prop :=
  ∃ file ∈ files, ∃ pack ∈ file.2.packs, pack.id = p ∧ pack.mixed

theorem foldl_insert_spec {files : List (ID × JsonIndex)} {idxs : List Index}
    (h : List.Forall₂ (fun (file : ID × JsonIndex) idx => ∃ seed now,
      Index.decode (.new seed now) file.1 (.current file.2) = some idx)
        files idxs) (mi : MasterIndex) :
    (idxs.foldl insert mi).content = mi.content + listedBy files ∧
      ∀ p, (idxs.foldl insert mi).isMixedPack p ↔ mi.isMixedPack p ∨ ListedTogether files p := by
  induction h generalizing mi with
  | nil => simp [listedBy, ListedTogether]
  | @cons file idx files idxs hdecode _ ih =>
    obtain ⟨seed, now, hdecode⟩ := hdecode
    obtain ⟨-, hcontent, -⟩ := Index.decode_spec hdecode
    obtain ⟨hrest, hmixed⟩ := ih (mi.insert idx)
    constructor
    · have hinsert : (mi.insert idx).content = mi.content + file.2.listed := by
        simp [insert, content, hcontent, IndexFile.listed, IndexFile.packs,
          JsonIndex.listed, add_assoc]
      rw [foldl_cons, hrest, hinsert, add_assoc]
      rfl
    · intro p
      have hinsert : (mi.insert idx).isMixedPack p ↔ mi.isMixedPack p ∨ p ∈ idx.mixedPacks := by
        simp [isMixedPack_iff, insert, MasterIndex.idx, or_assoc, or_and_right, exists_or]
      rw [foldl_cons, hmixed, hinsert, Index.mem_mixedPacks_decode hdecode, or_assoc]
      simp only [ListedTogether, mem_cons, exists_eq_or_imp]

/-- A pack is recognised unless its blobs of the two types are listed apart. -/
theorem isMixedPack_iff_together {seed : BlobType → ID → Nat} {now : Nat}
    {files : List (ID × JsonIndex)} {mi merged : MasterIndex}
    (hload : (new seed now).Inserts files mi)
    (hmerge : mi.mergeFinalIndexes = .ok merged) (p : ID) :
    ((mi.isMixedPack p ↔ HasBoth mi.content p) ↔
      (HasBoth (listedBy files) p → ListedTogether files p)) ∧
    ((merged.isMixedPack p ↔ HasBoth merged.content p) ↔
      (HasBoth (listedBy files) p → ListedTogether files p)) := by
  obtain ⟨idxs, hidxs, rfl⟩ := hload
  obtain ⟨hcontent, hmixed⟩ := foldl_insert_spec hidxs (new seed now)
  rw [content_new, zero_add] at hcontent
  have hempty : ¬ (new seed now).isMixedPack p := by
    simp [isMixedPack, idx, new, Index.new, Index.finalize]
  have hmixed := (hmixed p).trans (or_iff_right hempty)
  have hboth : ListedTogether files p → HasBoth (listedBy files) p := by
    rintro ⟨file, hfile, pack, hpack, rfl, hpackMixed⟩
    obtain ⟨⟨data, hdata, hdataPack⟩, tree, htree, htreePack⟩ := hasBoth_of_mixed hpack hpackMixed
    exact ⟨⟨data, mem_sum_map.mpr ⟨file, hfile, hdata⟩, hdataPack⟩,
      tree, mem_sum_map.mpr ⟨file, hfile, htree⟩, htreePack⟩
  constructor
  · rw [hmixed, hcontent]
    exact ⟨fun hiff => hiff.mpr, fun htogether => ⟨hboth, htogether⟩⟩
  · obtain ⟨_, hsame, -, -, hmem, -⟩ := mergeFinalIndexes_spec (idxs.foldl insert (new seed now))
    rw [hmerge] at hsame
    cases hsame
    have hmergedBoth : HasBoth merged.content p ↔ HasBoth (listedBy files) p := by
      simp only [HasBoth, hmem, hcontent]
    rw [isMixedPack_mergeFinalIndexes hmerge, hmixed, hmergedBoth]
    exact ⟨fun hiff => hiff.mpr, fun htogether => ⟨hboth, htogether⟩⟩

end MasterIndex

/-! ## A mixed pack that is listed in two files -/

def onePackIndex (blobs : List Blob) : Index :=
  ((Index.new (fun _ _ => 0) 0).storePack samplePackID blobs).getD (.new (fun _ _ => 0) 0)

def dataBlob : Blob := ⟨⟨samplePackID, .data⟩, 32, 0⟩

def treeBlob : Blob := ⟨⟨samplePackID, .tree⟩, 32, 32⟩

def mixedMaster : MasterIndex :=
  { MasterIndex.new (fun _ _ => 0) 0 with
    rest := [onePackIndex [dataBlob, treeBlob]] }

def splitFiles : List (ID × JsonIndex) :=
  [(.ofNat 1, ⟨[], [⟨samplePackID, [treeBlob]⟩]⟩), (.null, ⟨[], [⟨samplePackID, [dataBlob]⟩]⟩)]

deriving instance DecidableEq for PackJSON, JsonIndex

theorem mixedMaster_saved : ∃ s, mixedMaster.SaveReturns [] ∅ [] ∅ s ∧ s.cancelled = false ∧
      s.indexFiles = splitFiles :=
  exists_saveReturns
    (SaveAll.playback [] fun idx => idx.content = (onePackIndex [dataBlob]).content)
    (saveTurns 2) (fun s => s.cancelled = false ∧ s.indexFiles = splitFiles) (by decide +kernel)

theorem splitFiles_inserted : ∃ mi, (MasterIndex.new (fun _ _ => 0) 0).Inserts splitFiles mi ∧
      mi.isMixedPack samplePackID = false ∧ HasBoth mi.content samplePackID := by
  refine ⟨_, ⟨_, .cons ⟨fun _ _ => 0, 0, rfl⟩
    (.cons ⟨fun _ _ => 0, 0, rfl⟩ .nil), rfl⟩, by decide, ?_⟩
  exact ⟨⟨Index.packed samplePackID dataBlob, by decide, rfl, rfl⟩,
    Index.packed samplePackID treeBlob, by decide, rfl, rfl⟩

open SaveAll in
/-- Files that `Save` has written do not always let a mixed pack be recognised. -/
theorem not_isMixedPack_of_saved :
    ∃ (s : State) (mi : MasterIndex), mixedMaster.SaveReturns [] ∅ [] ∅ s ∧
      s.cancelled = false ∧
      (MasterIndex.new (fun _ _ => 0) 0).Inserts s.indexFiles mi ∧
      ¬ ∀ p, mi.isMixedPack p ↔ HasBoth mi.content p := by
  obtain ⟨s, hsaved, hcancelled, hfiles⟩ := mixedMaster_saved
  obtain ⟨mi, hinserts, hmixed, hboth⟩ := splitFiles_inserted
  refine ⟨s, mi, hsaved, hcancelled, hfiles ▸ hinserts, fun hall => ?_⟩
  rw [(hall samplePackID).mpr hboth] at hmixed
  cases hmixed

def togetherFiles : List (ID × JsonIndex) := [(.null, ⟨[], [⟨samplePackID, [dataBlob, treeBlob]⟩]⟩)]

theorem isMixedPack_iff_together_sample :
    ∃ mi merged, (MasterIndex.new (fun _ _ => 0) 0).Inserts togetherFiles mi ∧
      mi.mergeFinalIndexes = .ok merged ∧
      (merged.isMixedPack samplePackID ↔
        HasBoth merged.content samplePackID) := by
  obtain ⟨mi, hinserts⟩ : ∃ mi, (MasterIndex.new (fun _ _ => 0) 0).Inserts togetherFiles mi :=
    ⟨_, _, .cons ⟨fun _ _ => 0, 0, rfl⟩ .nil, rfl⟩
  obtain ⟨merged, hmerge, -⟩ := mi.mergeFinalIndexes_spec
  refine ⟨mi, merged, hinserts, hmerge,
    (MasterIndex.isMixedPack_iff_together hinserts hmerge samplePackID).2.mpr ?_⟩
  exact fun _ => ⟨_, mem_cons_self, _, mem_cons_self, rfl, by decide⟩

end Rapi.Repository
