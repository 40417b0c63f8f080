import Rapi.Restorer.DamagedBlobs
import Rapi.Restorer.FileContents
import Rapi.Restorer.RestoreFiles

/-!
# Where the blobs of a file go

A blob is read from the pack of its first index entry.  The places that
`downloadPack` finds for a file, in all packs together, are the chunks of the
file, and for a large file it finds the same places in the map that
`restoreFiles` made.
-/

namespace Rapi.Restorer

open Foundation Restic List Store

namespace RestoreFiles

open FileRestorer

variable {r : FileRestorer}

/-! ## Large files -/

theorem load_addToPacksMap (packID : ID) (file : FileInfo) (fileOffset : Int)
    (entries : List PackedBlob) (packsMap : Store ID (List FileBlobInfo)) :
    ((addToPacksMap fileOffset entries packsMap).load packID).getD [] =
      (packsMap.load packID).getD [] ++ (placesIn packID file fileOffset entries).map fun use =>
          ⟨use.blob.id, use.fileOffset⟩ := by
  induction entries generalizing fileOffset packsMap with
  | nil => simp [addToPacksMap, placesIn]
  | cons packed entries ih =>
    rw [addToPacksMap, ih]
    simp only [placesIn]
    split
    · rename_i hpack
      simp [← hpack]
    · rename_i hpack
      rw [load_save_of_ne _ _ (Ne.symm hpack)]

variable {file : FileInfo} {files : List FileInfo} {s packs : Packs}

theorem fileUses_ids {packID : ID} {content : List ID} {entries : List PackedBlob}
    (hblobs : file.blobs = .ids content) (hentries : r.forEachBlob content = .ok entries) :
    r.fileUses packID file = .ok (placesIn packID file 0 entries) := by
  simp only [fileUses, hblobs, hentries]

theorem fileUses_groupBlobs {packID : ID} {content : List ID} {entries : List PackedBlob}
    (hblobs : file.blobs = .ids content) (hentries : r.forEachBlob content = .ok entries) :
    r.fileUses packID (groupBlobs content entries file) =
      .ok (placesIn packID (groupBlobs content entries file) 0 entries) := by
  by_cases hlarge : largeFileBlobCount < content.length
  · have hgroup : groupBlobs content entries file =
        { file with blobs := .packs (addToPacksMap 0 entries []) } := if_pos hlarge
    generalize groupBlobs content entries file = grouped at hgroup ⊢
    have hgrouped : grouped.blobs = .packs (addToPacksMap 0 entries []) := by rw [hgroup]
    simp only [fileUses, hgrouped, load_addToPacksMap packID grouped,
      load_nil, Option.getD_none, nil_append, filterMap_map]
    congr 1
    conv_rhs => rw [← filterMap_some (l := placesIn packID _ _ _)]
    apply filterMap_congr
    intro use huse
    obtain ⟨hfile, packed, hpacked, hpack, hblob⟩ := mem_placesIn huse
    have hfind := find?_of_head? (mem_forEachBlob hentries hpacked) hpack
    have hid : packed.id = use.blob.id := by rw [← hblob]
    simp only [Function.comp_apply, ← hid, hfind, Option.map_some, hblob, ← hfile]
  · rw [groupBlobs, if_neg hlarge]
    exact fileUses_ids hblobs hentries

/-! ## The chunks of a file -/

section Chunks

variable {contents plaintext : ID → Bytes}

/-- The blobs can be read where their first index entries say. -/
def BlobsIntact (r : FileRestorer) (contents plaintext : ID → Bytes) (content : List ID) : Prop :=
  ∀ id ∈ content, ∀ packed, (r.idx ⟨id, .data⟩).head? = some packed →
    r.Readable (contents packed.packID) packed.toBlob packed.offset (plaintext id)

private structure Located (r : FileRestorer) (contents plaintext : ID → Bytes)
    (id : ID) (packed : PackedBlob) : Prop where
  id_eq : packed.id = id
  readable : r.Readable (contents packed.packID) packed.toBlob packed.offset (plaintext id)

variable {content : List ID} {entries : List PackedBlob}

private theorem located (hentries : r.forEachBlob content = .ok entries)
    (hintact : BlobsIntact r contents plaintext content) :
    List.Forall₂ (Located r contents plaintext) content entries := by
  have hboth := (forall₂_and_left _ _).mpr ⟨hintact, forEachBlob_spec hentries⟩
  exact hboth.imp fun id packed ⟨hread, hid, hhead⟩ => ⟨hid, hread packed hhead⟩

private theorem Located.length_eq {id : ID} {packed : PackedBlob}
    (h : Located r contents plaintext id packed) (start : Nat) :
    (start + packed.length - Crypto.extension : Int) = (start + (plaintext id).length : Nat) := by
  have hlength := Crypto.Key.length_of_decrypt (decryptBlob_ok h.readable.2).2
  rw [slice_length h.readable.1] at hlength
  omega

private theorem chunk_of_place {packID : ID} {file : FileInfo} {start : Nat}
    (h : List.Forall₂ (Located r contents plaintext) content entries) {use : Use}
    (huse : use ∈ placesIn packID file start entries) :
    r.Readable (contents packID) use.blob use.blob.offset (plaintext use.blob.id) ∧
      ∃ offset : Nat, use.fileOffset = offset ∧
        (offset, plaintext use.blob.id) ∈ chunks plaintext start content := by
  induction h generalizing start with
  | nil => simp [placesIn] at huse
  | @cons id packed ids entries hfirst _ ih =>
    simp only [placesIn, hfirst.length_eq] at huse
    split at huse
    · rename_i hpack
      rcases mem_cons.mp huse with rfl | huse
      · dsimp only
        rw [← hpack, hfirst.id_eq]
        exact ⟨hfirst.readable, start, rfl, mem_cons_self⟩
      · obtain ⟨hread, offset, hoffset, hchunk⟩ := ih huse
        exact ⟨hread, offset, hoffset, mem_cons_of_mem _ hchunk⟩
    · obtain ⟨hread, offset, hoffset, hchunk⟩ := ih huse
      exact ⟨hread, offset, hoffset, mem_cons_of_mem _ hchunk⟩

private theorem place_of_chunk (file : FileInfo) {start : Nat}
    (h : List.Forall₂ (Located r contents plaintext) content entries)
    {chunk : Nat × Bytes} (hchunk : chunk ∈ chunks plaintext start content) :
    ∃ packed ∈ entries, ∃ use ∈ placesIn packed.packID file start entries,
      use.fileOffset = chunk.1 ∧ plaintext use.blob.id = chunk.2 := by
  induction h generalizing start with
  | nil => simp [chunks] at hchunk
  | @cons id packed ids entries hfirst _ ih =>
    rcases mem_cons.mp hchunk with rfl | hchunk
    · refine ⟨packed, mem_cons_self, ⟨file, packed.toBlob, start⟩, ?_, rfl, by rw [← hfirst.id_eq]⟩
      simp [placesIn]
    · obtain ⟨found, hfound, use, huse, hspec⟩ := ih hchunk
      refine ⟨found, mem_cons_of_mem _ hfound, use, ?_, hspec⟩
      simp only [placesIn, hfirst.length_eq]
      split
      · exact mem_cons_of_mem _ huse
      · exact huse

end Chunks

/-! ## The packs of the files -/

@[simp] theorem groupBlobs_location (content : List ID) (entries : List PackedBlob)
    (file : FileInfo) : (groupBlobs content entries file).location = file.location := by
  unfold groupBlobs
  split <;> rfl

@[simp] theorem groupBlobs_size (content : List ID) (entries : List PackedBlob) (file : FileInfo) :
    (groupBlobs content entries file).size = file.size := by
  unfold groupBlobs
  split <;> rfl

/-- `grouped` is what `restoreFiles` makes of the file. -/
def Grouped (r : FileRestorer) (file grouped : FileInfo) : Prop :=
  ∃ content entries, file.blobs = .ids content ∧
    r.forEachBlob content = .ok entries ∧
    grouped = groupBlobs content entries file

namespace Packs

def HasFile (s : Packs) (packID : ID) (file : FileInfo) : Prop :=
  ∃ pack, s.packs.load packID = some pack ∧ file ∈ pack.files

def Known (P : FileInfo → Prop) (s : Packs) : Prop :=
  ∀ id pack, s.packs.load id = some pack →
    pack.id = id ∧ id ∈ s.packOrder ∧ ∀ file ∈ pack.files, P file

variable {s : Packs} {file other : FileInfo} {P : FileInfo → Prop}

theorem add_spec (file : FileInfo) (s : Packs) (packID : ID) :
    ∃ pack order, s.add file packID = ⟨s.packs.save packID pack, order⟩ ∧
      s.packOrder ⊆ order ∧ file ∈ pack.files ∧
      ((∃ old, s.packs.load packID = some old ∧ pack.id = old.id ∧
          ∀ f, f ∈ pack.files ↔ f ∈ old.files ∨ f = file) ∨
        s.packs.load packID = none ∧ pack = ⟨packID, [file]⟩ ∧ packID ∈ order) := by
  unfold add
  split
  · rename_i old hold
    refine ⟨_, _, rfl, List.Subset.refl _, ?_, Or.inl ⟨old, hold, rfl, ?_⟩⟩
    · dsimp only
      split <;> simp_all
    · intro f
      dsimp only
      split
      · rename_i hmem
        exact ⟨Or.inl, fun h => h.elim id fun h => h ▸ hmem⟩
      · simp
  · rename_i hnone
    exact ⟨_, _, rfl, subset_append_left _ _, by simp, Or.inr ⟨hnone, rfl, by simp⟩⟩

theorem hasFile_add_self (packID : ID) : (s.add file packID).HasFile packID file := by
  obtain ⟨pack, order, hadd, -, hmem, -⟩ := add_spec file s packID
  rw [hadd]
  exact ⟨pack, load_save_self _ _ _, hmem⟩

theorem HasFile.add {id : ID} (h : s.HasFile id other) (packID : ID) :
    (s.add file packID).HasFile id other := by
  obtain ⟨pack, order, hadd, -, -, hpack⟩ := add_spec file s packID
  obtain ⟨found, hload, hother⟩ := h
  rw [hadd]
  by_cases hid : id = packID
  · subst hid
    refine ⟨pack, load_save_self _ _ _, ?_⟩
    rcases hpack with ⟨old, hold, -, hfiles⟩ | ⟨hnone, -⟩
    · rw [hload] at hold
      cases hold
      exact (hfiles other).mpr (Or.inl hother)
    · rw [hload] at hnone
      cases hnone
  · exact ⟨found, by rw [load_save_of_ne _ _ hid, hload], hother⟩

theorem Known.add (h : s.Known P) (hfile : P file) (packID : ID) : (s.add file packID).Known P := by
  obtain ⟨pack, order, hadd, horder, -, hpack⟩ := add_spec file s packID
  rw [hadd]
  intro id found hload
  by_cases hid : id = packID
  · subst hid
    rw [load_save_self] at hload
    cases hload
    rcases hpack with ⟨old, hold, hsame, hfiles⟩ | ⟨-, rfl, hmem⟩
    · obtain ⟨hid, hmem, hP⟩ := h id old hold
      refine ⟨hsame.trans hid, horder hmem, fun f hf => ?_⟩
      rcases (hfiles f).mp hf with hf | rfl
      · exact hP f hf
      · exact hfile
    · exact ⟨rfl, hmem, by simpa using hfile⟩
  · rw [load_save_of_ne _ _ hid] at hload
    obtain ⟨hid, hmem, hP⟩ := h id found hload
    exact ⟨hid, horder hmem, hP⟩

theorem HasFile.foldl_add {id : ID} (h : s.HasFile id other) (packIDs : List ID) :
    (packIDs.foldl (Packs.add file) s).HasFile id other := by
  induction packIDs generalizing s with
  | nil => exact h
  | cons packID packIDs ih => exact ih (h.add packID)

theorem hasFile_foldl_add {packIDs : List ID} {packID : ID} (h : packID ∈ packIDs) :
    (packIDs.foldl (Packs.add file) s).HasFile packID file := by
  induction packIDs generalizing s with
  | nil => simp at h
  | cons first packIDs ih =>
    rcases mem_cons.mp h with rfl | h
    · exact (hasFile_add_self packID).foldl_add packIDs
    · exact ih h

theorem Known.foldl_add (h : s.Known P) (hfile : P file)
    (packIDs : List ID) : (packIDs.foldl (Packs.add file) s).Known P := by
  induction packIDs generalizing s with
  | nil => exact h
  | cons packID packIDs ih => exact ih (h.add hfile packID)

end Packs

theorem createPackInfo_mono (h : createPackInfo r files s = .ok packs) {id : ID}
    {other : FileInfo} (hother : s.HasFile id other) : packs.HasFile id other := by
  induction files generalizing s with
  | nil =>
    cases h
    exact hother
  | cons file files ih =>
    simp only [createPackInfo] at h
    split at h
    · cases h
    · split at h
      · cases h
      · exact ih h (hother.foldl_add _)

theorem createPackInfo_hasFile (h : createPackInfo r files s = .ok packs) (hfile : file ∈ files) :
    ∃ content entries, file.blobs = .ids content ∧
      r.forEachBlob content = .ok entries ∧ ∀ packed ∈ entries,
        packs.HasFile packed.packID (groupBlobs content entries file) := by
  induction files generalizing s with
  | nil => simp at hfile
  | cons first files ih =>
    simp only [createPackInfo] at h
    split at h
    · cases h
    · rename_i content hblobs
      split at h
      · cases h
      · rename_i entries hentries
        rcases mem_cons.mp hfile with rfl | hfile
        · refine ⟨content, entries, hblobs, hentries, fun packed hpacked => ?_⟩
          exact createPackInfo_mono h (Packs.hasFile_foldl_add (mem_map_of_mem hpacked))
        · exact ih h hfile

theorem createPackInfo_known {P : FileInfo → Prop} (h : createPackInfo r files s = .ok packs)
    (hs : s.Known P) (hP : ∀ file ∈ files, ∀ grouped, Grouped r file grouped → P grouped) :
    packs.Known P := by
  induction files generalizing s with
  | nil =>
    cases h
    exact hs
  | cons file files ih =>
    simp only [createPackInfo] at h
    split at h
    · cases h
    · rename_i content hblobs
      split at h
      · cases h
      · rename_i entries hentries
        refine ih h (hs.foldl_add ?_ _) fun other hother => ?_
        · exact hP file mem_cons_self _ ⟨content, entries, hblobs, hentries, rfl⟩
        · exact hP other (mem_cons_of_mem _ hother)

def placesOf (r : FileRestorer) (pack : PackInfo) : List Use :=
  pack.files.flatMap fun file => ((r.fileUses pack.id file).toOption).getD []

section Restorable

variable {contents plaintext : ID → Bytes} {files : List FileInfo}

/-- Files with their own target paths, whose blobs are intact and make up their
sizes. -/
structure Restorable (r : FileRestorer) (contents plaintext : ID → Bytes)
    (files : List FileInfo) : Prop where
  distinct : (files.map fun file => r.targetPath file.location).Nodup
  content : ∀ file ∈ files, ∃ content, file.blobs = .ids content ∧
    content ≠ [] ∧ file.size = (content.flatMap plaintext).length ∧
    BlobsIntact r contents plaintext content

variable {file : FileInfo}

theorem Restorable.blobsIntact (h : Restorable r contents plaintext files)
    (hfile : file ∈ files) {content : List ID} (hblobs : file.blobs = .ids content) :
    BlobsIntact r contents plaintext content := by
  obtain ⟨content', hblobs', -, -, hintact⟩ := h.content file hfile
  rw [hblobs] at hblobs'
  cases hblobs'
  exact hintact

theorem chunks_ids {content : List ID} (hblobs : file.blobs = .ids content) :
    file.chunks plaintext = chunks plaintext 0 content := by
  simp only [FileInfo.chunks, hblobs]

theorem Restorable.of_place (h : Restorable r contents plaintext files)
    {pack : PackInfo} (hpack : ∀ grouped ∈ pack.files, ∃ file ∈ files,
      Grouped r file grouped) {use : Use} (huse : use ∈ placesOf r pack) :
    r.Readable (contents pack.id) use.blob use.blob.offset (plaintext use.blob.id) ∧
      use.file ∈ pack.files ∧ ∃ file ∈ files, Grouped r file use.file ∧
        (use.fileOffset.toNat, plaintext use.blob.id) ∈ file.chunks plaintext := by
  obtain ⟨grouped, hgrouped, huse⟩ := mem_flatMap.mp huse
  obtain ⟨file, hfile, content, entries, hblobs, hentries, rfl⟩ := hpack grouped hgrouped
  rw [fileUses_groupBlobs hblobs hentries] at huse
  have huse : use ∈ placesIn pack.id (groupBlobs content entries file) (0 : Nat) entries := huse
  obtain ⟨hsame, -⟩ := mem_placesIn huse
  obtain ⟨hread, offset, hoffset, hchunk⟩ := chunk_of_place
    (located hentries (h.blobsIntact hfile hblobs)) huse
  refine ⟨hread, hsame ▸ hgrouped, file, hfile, ?_, ?_⟩
  · exact ⟨content, entries, hblobs, hentries, hsame⟩
  · rw [hoffset, chunks_ids hblobs]
    exact hchunk

theorem Restorable.exists_place (h : Restorable r contents plaintext files) {packs : Packs}
    (hpacks : createPackInfo r files ⟨[], []⟩ = .ok packs) (hfile : file ∈ files)
    {chunk : Nat × Bytes} (hchunk : chunk ∈ file.chunks plaintext) :
    ∃ id ∈ packs.packOrder, ∃ pack, packs.packs.load id = some pack ∧
      ∃ use ∈ placesOf r pack, Grouped r file use.file ∧
        use.fileOffset.toNat = chunk.1 ∧
        plaintext use.blob.id = chunk.2 := by
  obtain ⟨content, entries, hblobs, hentries, hpacked⟩ := createPackInfo_hasFile hpacks hfile
  rw [chunks_ids hblobs] at hchunk
  obtain ⟨packed, hmem, use, huse, hoffset, hdata⟩ := place_of_chunk
    (groupBlobs content entries file) (located hentries (h.blobsIntact hfile hblobs)) hchunk
  obtain ⟨pack, hload, hfiles⟩ := hpacked packed hmem
  obtain ⟨hid, horder, -⟩ := createPackInfo_known (P := fun _ => True) hpacks
    nofun (fun _ _ _ _ => trivial) packed.packID pack hload
  refine ⟨packed.packID, horder, pack, hload, use, ?_, ?_, by simp [hoffset], hdata⟩
  · refine mem_flatMap.mpr ⟨_, hfiles, ?_⟩
    rw [fileUses_groupBlobs hblobs hentries, hid]
    exact huse
  · exact ⟨content, entries, hblobs, hentries, (mem_placesIn huse).1⟩

end Restorable

end RestoreFiles

end Rapi.Restorer
