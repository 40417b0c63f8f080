import Rapi.Pack.RoundTrip
import Rapi.Repository.PackSize

/-!
# Comparing the packs with the index

`Packs` compares the sizes that were computed from the index with those of the
files.  Nothing is reported about a repository that has exactly the packs of the
index.
-/

namespace Rapi.Checker

open Foundation Crypto Restic Pack Repository List MasterIndex

inductive PacksError
  | doesNotExist (id : ID)
  | unexpectedFileSize (id : ID) (got expected : Nat)
  | orphaned (id : ID)
  deriving DecidableEq

/-- The loop over the packs of the index; what is left of `repoPacks` is returned. -/
def compareSizes : List (Σ _ : ID, Nat) → (AList fun _ : ID => Nat) →
    List PacksError × AList fun _ : ID => Nat
  | [], repoPacks => ([], repoPacks)
  | ⟨id, size⟩ :: rest, repoPacks =>
    let (errs, left) := compareSizes rest (repoPacks.erase id)
    match repoPacks.lookup id with
    | none => (.doesNotExist id :: errs, left)
    | some reposize =>
      if size ≠ reposize then (.unexpectedFileSize id reposize size :: errs, left)
      else (errs, left)

/-- `indexPacks` are the packs of the index in the order of the map. -/
def packs (indexPacks : List (Σ _ : ID, Nat)) (listing : List (ID × Nat)) : List PacksError :=
  let repoPacks := accumulate Prod.fst (fun _ file => file.2) listing ∅
  let (errs, left) := compareSizes indexPacks repoPacks
  errs ++ left.keys.map .orphaned

theorem compareSizes_eq_nil {indexPacks : List (Σ _ : ID, Nat)}
    {repoPacks : AList fun _ : ID => Nat} (hnodup : (indexPacks.map Sigma.fst).Nodup)
    (hsame : ∀ pack ∈ indexPacks, repoPacks.lookup pack.1 = some pack.2) :
    (compareSizes indexPacks repoPacks).1 = [] ∧
      ∀ id, id ∈ (compareSizes indexPacks repoPacks).2 ↔
        id ∈ repoPacks ∧ id ∉ indexPacks.map Sigma.fst := by
  induction indexPacks generalizing repoPacks with
  | nil => simp [compareSizes]
  | cons pack rest ih =>
    obtain ⟨hfirst, hrest⟩ := nodup_cons.mp hnodup
    obtain ⟨hpack, hsame⟩ := forall_mem_cons.mp hsame
    have herased : ∀ other ∈ rest, (repoPacks.erase pack.1).lookup other.1 = some other.2 := by
      intro other hother
      have hne : other.1 ≠ pack.1 :=
        fun heq => hfirst (heq ▸ mem_map_of_mem hother)
      rw [AList.lookup_erase_ne hne]
      exact hsame other hother
    obtain ⟨herrs, hleft⟩ := ih hrest herased
    have hstep : compareSizes (pack :: rest) repoPacks =
        compareSizes rest (repoPacks.erase pack.1) := by
      rw [compareSizes, hpack]
      simp
    rw [hstep]
    refine ⟨herrs, fun id => ?_⟩
    rw [hleft, AList.mem_erase, map_cons, mem_cons]
    tauto

theorem lookup_listing {listing : List (ID × Nat)} {id : ID} {size : Nat}
    (hmem : (id, size) ∈ listing) (hsame : ∀ file ∈ listing, file.1 = id → file.2 = size) :
    (accumulate Prod.fst (fun _ file => file.2) listing
      (∅ : AList fun _ : ID => Nat)).lookup id = some size := by
  rw [lookup_accumulate, AList.lookup_empty]
  have hlast : ∀ (files : List (ID × Nat)), (∀ file ∈ files, file.2 = size) →
      ∀ v, (v = some size ∨ files ≠ []) →
        files.foldl (fun _ file => some file.2) v = some size := by
    intro files
    induction files with
    | nil => exact fun _ v hv => hv.resolve_right (· rfl)
    | cons file files ih =>
      intro hfiles v _
      obtain ⟨hfile, hfiles⟩ := forall_mem_cons.mp hfiles
      exact ih hfiles _ (Or.inl (congrArg some hfile))
  apply hlast
  · intro file hfile
    obtain ⟨hfile, hid⟩ := mem_filter.mp hfile
    exact hsame file hfile (by simpa using hid)
  · right
    exact ne_nil_of_mem (mem_filter.mpr ⟨hmem, by simp⟩)

theorem packs_eq_nil {sizes : AList fun _ : ID => Nat} {indexPacks : List (Σ _ : ID, Nat)}
    (horder : indexPacks.Perm sizes.entries) {listing : List (ID × Nat)}
    (hlisting : ∀ id size, (id, size) ∈ listing ↔ sizes.lookup id = some size) :
    packs indexPacks listing = [] := by
  set repoPacks := accumulate Prod.fst (fun _ file => file.2) listing
    (∅ : AList fun _ : ID => Nat) with hrepo
  have hlookup : ∀ id size, sizes.lookup id = some size → repoPacks.lookup id = some size := by
    intro id size hsize
    refine lookup_listing ((hlisting id size).mpr hsize) ?_
    rintro ⟨_, other⟩ hfile rfl
    have hother := (hlisting _ _).mp hfile
    rw [hsize, Option.some.injEq] at hother
    exact hother.symm
  have hmem : ∀ id, id ∈ repoPacks → id ∈ sizes := by
    intro id hid
    by_contra hnot
    have hnone : listing.filter (·.1 = id) = [] := by
      rw [filter_eq_nil_iff]
      rintro ⟨id', size⟩ hfile hkey
      have hsize := (hlisting id' size).mp hfile
      obtain rfl : id' = id := of_decide_eq_true hkey
      rw [AList.lookup_eq_none.mpr hnot] at hsize
      cases hsize
    have hlook : repoPacks.lookup id = none := by
      rw [hrepo, lookup_accumulate, hnone]
      rfl
    exact AList.lookup_eq_none.mp hlook hid
  have hkeys : (indexPacks.map Sigma.fst).Perm sizes.keys := horder.map _
  have hsame : ∀ pack ∈ indexPacks, repoPacks.lookup pack.1 = some pack.2 :=
    fun pack hpack => hlookup _ _ (AList.mem_lookup_iff.mpr (horder.mem_iff.mp hpack))
  obtain ⟨herrs, hleft⟩ := compareSizes_eq_nil (hkeys.nodup_iff.mpr sizes.keys_nodup) hsame
  have hnone : (compareSizes indexPacks repoPacks).2.keys = [] := by
    rw [eq_nil_iff_forall_not_mem]
    intro id hid
    obtain ⟨hrepo, hnot⟩ := (hleft id).mp (AList.mem_keys.mpr hid)
    exact hnot (hkeys.mem_iff.mpr (AList.mem_keys.mp (hmem id hrepo)))
  unfold packs
  rw [← hrepo]
  simp only [herrs, hnone]
  rfl

/-! ## Undamaged repositories -/

section Undamaged

variable {k : Key} {written : List (WrittenPack k)} {mi : MasterIndex}
  {seed : BlobType → ID → Nat} {now : Nat}

theorem packs_of_content (hdistinct : (written.map WrittenPack.id).Nodup)
    (hcontent : mi.content = WrittenPack.allEntries written) {indexPacks : List (Σ _ : ID, Nat)}
    (horder : indexPacks.Perm (mi.packSize false).entries) {listing : List (ID × Nat)}
    (hlisting : ∀ file, file ∈ listing ↔
      ∃ pack ∈ written, file = (pack.id, pack.file.length)) : packs indexPacks listing = [] := by
  refine packs_eq_nil horder fun id size => ?_
  rw [hlisting]
  constructor
  · rintro ⟨pack, hpack, hfile⟩
    cases hfile
    rw [pack.size_eq.1]
    exact (lookup_packSize_pack hcontent hdistinct hpack).1
  · intro hsize
    by_cases hid : id ∈ written.map WrittenPack.id
    · obtain ⟨pack, hpack, rfl⟩ := mem_map.mp hid
      rw [(lookup_packSize_pack hcontent hdistinct hpack).1, Option.some.injEq] at hsize
      exact ⟨pack, hpack, by rw [pack.size_eq.1, hsize]⟩
    · rw [lookup_packSize_other hcontent hid] at hsize
      cases hsize

/-- The sizes that are computed from the index are those of the files. -/
theorem packSize_matches_files
    (hdistinct : (written.map WrittenPack.id).Nodup)
    (hreach : Reaches MasterIndex.step (MasterIndex.EditOf written) (.new seed now) mi)
    (honce : MasterIndex.EachOnce written mi) :
    (∀ pack ∈ written,
      (mi.packSize false).lookup pack.id = some pack.size ∧
      pack.file.length = pack.size ∧
      (pack.blobs.length * entrySize + extension ≤ maxHeaderSize →
        ∃ entries hdrSize, list k pack.file pack.file.length = .ok (entries, hdrSize)) ∧
      ∀ entries hdrSize,
        -- the length field in the file is a uint32
        pack.blobs.length * entrySize + extension < 2 ^ 32 →
        list k pack.file pack.file.length = .ok (entries, hdrSize) →
          (mi.packSize true).lookup pack.id = some hdrSize) ∧
    (∀ id onlyHdr, id ∉ written.map WrittenPack.id →
      (mi.packSize onlyHdr).lookup id = none) ∧
    ∀ indexPacks listing, indexPacks.Perm (mi.packSize false).entries →
      (∀ file, file ∈ listing ↔ ∃ pack ∈ written, file = (pack.id, pack.file.length)) →
      packs indexPacks listing = [] := by
  have hcome := comeFrom_of_reaches hreach
  have hcontent := content_eq_allEntries hcome honce
  refine ⟨fun pack hpack => ?_, ?_, ?_⟩
  · obtain ⟨hsize, hheader⟩ := lookup_packSize_pack hcontent hdistinct hpack
    refine ⟨hsize, pack.size_eq.1, ?_, ?_⟩
    · intro hmax
      have hlength : ∀ b ∈ pack.blobs, b.length < 2 ^ 32 := by
        intro b hb
        have hentry : Index.packed pack.id b ∈ mi.content := by
          rw [hcontent]
          exact WrittenPack.mem_allEntries.mpr ⟨pack, hpack, mem_map_of_mem hb⟩
        exact Nat.lt_succ_of_le (hcome _ hentry).2
      exact ⟨_, _, list_isPack pack.isPack pack.nonempty hlength hmax⟩
    · intro entries hdrSize hfits hlist
      rw [hheader, hdrSize_of_list_isPack pack.isPack pack.nonempty hfits hlist]
  · exact fun id onlyHdr hid => lookup_packSize_other hcontent hid onlyHdr
  · intro indexPacks listing horder hlisting
    exact packs_of_content hdistinct hcontent horder hlisting

end Undamaged

def sampleWritten : WrittenPack sampleKey where
  id := .ofNat 5
  packer := addAll .new sampleAdditions
  filled := .add (.add .new ..) ..
  nonempty := by decide
  nonce := sampleNonce
  finalized := ((addAll .new sampleAdditions).finalize sampleKey sampleNonce none none).1
  size := 3 + 2 * entrySize + headerSize
  finalize_eq := Prod.ext rfl (congrArg Prod.snd (Pack.finalize_eq
    (rfl : makeHeader (addAll .new sampleAdditions).blobs = .ok _)))

def sampleWrittenIndex : Index :=
  (((Index.new (fun _ _ => 0) 0).storePack sampleWritten.id
    sampleWritten.blobs).bind fun idx => idx.finalize.encode.bind fun file =>
      Index.decode (.new (fun _ _ => 0) 0) .null (.current file)).getD (.new (fun _ _ => 0) 0)

theorem sampleWrittenIndex_of : IndexOf [sampleWritten] sampleWrittenIndex :=
  .decode (.finalize (.storePack (.new (fun _ _ => 0) 0) mem_cons_self rfl))
    rfl (fun _ _ => 0) 0 .null rfl

theorem packSize_matches_files_sample :
    ∃ mi, run MasterIndex.step (.new (fun _ _ => 0) 0)
        [.insert sampleWrittenIndex] = some mi ∧
      (mi.packSize false).lookup sampleWritten.id = some sampleWritten.file.length := by
  refine ⟨_, rfl, ?_⟩
  have hreach : Reaches MasterIndex.step (MasterIndex.EditOf [sampleWritten])
      (.new (fun _ _ => 0) 0) ((MasterIndex.new (fun _ _ => 0) 0).insert sampleWrittenIndex) :=
    .next .refl (show MasterIndex.EditOf _ _ (.insert sampleWrittenIndex) from
      sampleWrittenIndex_of) rfl
  have honce : MasterIndex.EachOnce [sampleWritten]
      ((MasterIndex.new (fun _ _ => 0) 0).insert sampleWrittenIndex) := by
    unfold MasterIndex.EachOnce
    decide
  have hdistinct : ([sampleWritten].map WrittenPack.id).Nodup := nodup_singleton _
  obtain ⟨hsize, hlength, -⟩ := (packSize_matches_files hdistinct hreach
    honce).1 sampleWritten mem_cons_self
  rw [hlength]
  exact hsize

end Rapi.Checker
