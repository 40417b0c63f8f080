import Rapi.Repository.Merging

/-!
# Loading the index

`LoadIndex` decodes every index file and inserts the result into the master
index, in the order in which the files arrive, and merges what it inserted.
Files of the old format are lists of packs; an index that is decoded from one of
them does not have an ID.
-/

namespace Rapi.Repository

open Foundation Restic List

inductive IndexFile
  | current (file : JsonIndex)
  | old (packs : List PackJSON)

namespace IndexFile

def packs : IndexFile → List PackJSON
  | .current file => file.packs
  | .old packs => packs

def listed (file : IndexFile) : Multiset PackedBlob := listedIn file.packs

/-- The ID that the decoded index has. -/
def ids (id : ID) : IndexFile → List ID
  | .current _ => [id]
  | .old _ => []

end IndexFile

namespace Index

def decodePack (idx : Index) (pack : PackJSON) : Option Index :=
  (idx.storePack pack.id pack.blobs).map fun idx =>
    if pack.blobs.any (·.type = .data) && pack.blobs.any (·.type = .tree) then
      { idx with mixedPacks := idx.mixedPacks ++ [pack.id] }
    else idx

def decodePacks : List PackJSON → Index → Option Index
  | [], idx => some idx
  | pack :: packs, idx =>
    match idx.decodePack pack with
    | none => none
    | some idx => decodePacks packs idx

/-- Only files of the current format give the index an ID. -/
def decode (newIndex : Index) (id : ID) : IndexFile → Option Index
  | .current file => (decodePacks file.packs newIndex).map fun idx =>
    { idx with
      supersedes := file.supersedes
      ids := idx.ids ++ [id]
      final := true }
  | .old packs => (decodePacks packs newIndex).map fun idx => { idx with final := true }

variable {idx : Index}

theorem ids_storePack {idx' : Index} {id : ID} {blobs : List Blob}
    (h : idx.storePack id blobs = some idx') : idx'.ids = idx.ids := by
  unfold storePack at h
  split at h
  · cases h
  · split at h
    · cases h
    · cases h
      rfl

theorem decodePacks_spec {packs : List PackJSON} {idx' : Index}
    (h : decodePacks packs idx = some idx') :
    idx'.content = listedIn packs + idx.content ∧ idx'.ids = idx.ids := by
  induction packs generalizing idx with
  | nil =>
    cases h
    exact ⟨(zero_add _).symm, rfl⟩
  | cons pack packs ih =>
    rw [decodePacks] at h
    split at h
    · cases h
    · rename_i next hnext
      obtain ⟨hcontent, hids⟩ := ih h
      obtain ⟨stored, hstored, rfl⟩ := Option.map_eq_some_iff.mp hnext
      obtain ⟨hpack, -⟩ := storePack_spec hstored
      have hcons : listedIn (pack :: packs) =
          listedIn packs + (pack.blobs.map (packed pack.id) : List _) := by
        rw [add_comm]
        simp [listedIn, ← Multiset.coe_add]
      constructor
      · rw [hcontent, hcons, add_assoc, ← hpack]
        split <;> rfl
      · rw [hids, ← ids_storePack hstored]
        split <;> rfl

theorem decode_spec {seed : BlobType → ID → Nat} {now : Nat} {id : ID}
    {file : IndexFile} (h : decode (.new seed now) id file = some idx) :
    idx.final ∧ idx.content = file.listed ∧ idx.ids = file.ids id := by
  cases file with
  | current file =>
    obtain ⟨decoded, hdecoded, rfl⟩ := Option.map_eq_some_iff.mp h
    obtain ⟨hcontent, hids⟩ := decodePacks_spec hdecoded
    exact ⟨rfl, hcontent.trans (add_zero _), congrArg (· ++ [id]) hids⟩
  | old packs =>
    obtain ⟨decoded, hdecoded, rfl⟩ := Option.map_eq_some_iff.mp h
    obtain ⟨hcontent, hids⟩ := decodePacks_spec hdecoded
    exact ⟨rfl, hcontent.trans (add_zero _), hids⟩

theorem exists_decodePacks {packs : List PackJSON} (hfinal : idx.final = false)
    (hfits : ∀ pb ∈ listedIn packs, pb.offset ≤ maxuint32 ∧ pb.length ≤ maxuint32) :
    ∃ idx', decodePacks packs idx = some idx' := by
  induction packs generalizing idx with
  | nil => exact ⟨idx, rfl⟩
  | cons pack packs ih =>
    have hcons := listedIn_append [pack] packs
    rw [singleton_append] at hcons
    obtain ⟨stored, hstored⟩ := exists_storePack hfinal (by
      intro b hb
      refine hfits (packed pack.id b) ?_
      rw [hcons, Multiset.mem_add]
      exact Or.inl (by simpa [listedIn] using ⟨b, hb, rfl⟩)) pack.id
    obtain ⟨next, hnext, hopen⟩ : ∃ next, idx.decodePack pack = some next ∧ next.final = false := by
      rw [decodePack, hstored]
      refine ⟨_, rfl, ?_⟩
      split <;> exact (storePack_spec hstored).2
    rw [decodePacks, hnext]
    exact ih hopen fun pb hpb => hfits pb (by rw [hcons]; exact Multiset.mem_add.mpr (Or.inr hpb))

theorem exists_decode {newIndex : Index} (hfinal : newIndex.final = false) (id : ID)
    {file : IndexFile} (hfits : ∀ pb ∈ file.listed, pb.offset ≤ maxuint32 ∧ pb.length ≤ maxuint32) :
    ∃ idx, decode newIndex id file = some idx := by
  cases file with
  | current file | old packs =>
    obtain ⟨idx, hidx⟩ := exists_decodePacks hfinal hfits
    exact ⟨_, congrArg (Option.map _) hidx⟩

end Index

namespace MasterIndex

/-- The index files arrive in the given order and are decoded without error. -/
def LoadIndex (mi : MasterIndex) (files : List (ID × IndexFile)) (mi' : MasterIndex) : Prop :=
  ∃ idxs, List.Forall₂ (fun (file : ID × IndexFile) idx => ∃ seed now,
      Index.decode (.new seed now) file.1 file.2 = some idx) files idxs ∧
    (idxs.foldl insert mi).mergeFinalIndexes = .ok mi'

/-- The IDs of the files in the current format. -/
def currentIDs (files : List (ID × IndexFile)) : List ID :=
  files.flatMap fun file => file.2.ids file.1

theorem foldl_insert (idxs : List Index) (mi : MasterIndex) :
    idxs.foldl insert mi = { mi with rest := mi.rest ++ idxs } := by
  induction idxs generalizing mi with
  | nil => simp
  | cons idx idxs ih =>
    rw [foldl_cons, ih]
    simp [insert]

variable {files : List (ID × IndexFile)}

private theorem decoded_spec {idxs : List Index}
    (h : List.Forall₂ (fun (file : ID × IndexFile) idx => ∃ seed now,
      Index.decode (.new seed now) file.1 file.2 = some idx) files idxs) :
    (∀ idx ∈ idxs, idx.final) ∧
      idxs.flatMap (·.ids) = currentIDs files ∧
      ∀ pb, (∃ idx ∈ idxs, pb ∈ idx.content) ↔ ∃ file ∈ files, pb ∈ file.2.listed := by
  induction h with
  | nil => exact ⟨nofun, rfl, by simp⟩
  | @cons file idx files idxs hdecode _ ih =>
    obtain ⟨seed, now, hdecode⟩ := hdecode
    obtain ⟨hfinal, hcontent, hids⟩ := Index.decode_spec hdecode
    obtain ⟨hfinals, hall, hmem⟩ := ih
    refine ⟨?_, ?_, fun pb => ?_⟩
    · intro other hother
      rcases mem_cons.mp hother with rfl | hother
      · exact hfinal
      · exact hfinals other hother
    · rw [flatMap_cons, hall, hids, currentIDs, currentIDs, flatMap_cons]
    · simp [← hcontent, ← hmem]

theorem exists_loadIndex (mi : MasterIndex)
    (hfits : ∀ file ∈ files, ∀ pb ∈ file.2.listed, pb.offset ≤ Index.maxuint32 ∧
      pb.length ≤ Index.maxuint32) : ∃ mi', mi.LoadIndex files mi' := by
  obtain ⟨idxs, hidxs⟩ : ∃ idxs, List.Forall₂ (fun (file : ID × IndexFile) idx => ∃ seed now,
        Index.decode (.new seed now) file.1 file.2 = some idx) files idxs := by
    induction files with
    | nil => exact ⟨[], .nil⟩
    | cons file files ih =>
      obtain ⟨hfile, hrest⟩ := forall_mem_cons.mp hfits
      obtain ⟨idxs, hidxs⟩ := ih hrest
      obtain ⟨idx, hidx⟩ := Index.exists_decode
        (rfl : (Index.new (fun _ _ => 0) 0).final = false) file.1 hfile
      exact ⟨idx :: idxs, .cons ⟨_, _, hidx⟩ hidxs⟩
  obtain ⟨mi', hmerge, -⟩ := mergeFinalIndexes_spec (idxs.foldl insert mi)
  exact ⟨mi', idxs, hidxs, hmerge⟩

theorem loadIndex_spec {seed : BlobType → ID → Nat} {now : Nat} {mi : MasterIndex}
    (h : (new seed now).LoadIndex files mi) : mi.rest = [] ∧ mi.first.ids = currentIDs files ∧
      ∀ pb, pb ∈ mi.content ↔ ∃ file ∈ files, pb ∈ file.2.listed := by
  obtain ⟨idxs, hidxs, hmerge⟩ := h
  obtain ⟨hfinal, hids, hlisted⟩ := decoded_spec hidxs
  rw [foldl_insert] at hmerge
  obtain ⟨hrest, hfirst, -⟩ := mergeFinalIndexes_fields hmerge
  obtain ⟨_, hsame, -, -, hmem, -⟩ := mergeFinalIndexes_spec
    { new seed now with rest := (new seed now).rest ++ idxs }
  rw [hmerge] at hsame
  cases hsame
  refine ⟨?_, ?_, fun pb => ?_⟩
  · rw [hrest, filter_eq_nil_iff]
    intro idx hidx
    simp [hfinal idx (by simpa [new] using hidx)]
  · rw [hfirst, ← hids]
    change (List.filter _ ((new seed now).first :: ([] ++ idxs))).flatMap _ = _
    rw [filter_eq_self.mpr, flatMap_cons]
    · rfl
    · intro idx hidx
      rcases mem_cons.mp hidx with rfl | hidx
      · rfl
      · exact hfinal idx hidx
  · rw [hmem, ← hlisted, mem_content]
    change (∃ idx ∈ (new seed now).first :: ([] ++ idxs), _) ↔ _
    simp only [nil_append, mem_cons, exists_eq_or_imp]
    exact or_iff_right (Multiset.notMem_zero pb)

end MasterIndex

end Rapi.Repository
