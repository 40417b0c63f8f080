import Rapi.Repository.LoadBlob

/-!
# Checking a pack

`checkPack` downloads a pack and compares it with its ID, its expected size, its
header and the index.  The blobs are read into one buffer that is reused.  The
result is missing if the check panics, which it does on blobs that are shorter
than a nonce.
-/

namespace Rapi.Checker

open Foundation Crypto Restic Repository

inductive BlobError
  | read (position : Nat) (error : Pack.Error)
  | decrypt (position : Nat) (reason : OpenError)
  | idMismatch (want got : ID)
  | notInIndex (id : ID)
  | sizeMismatch (want : Int) (got : Nat)
  deriving DecidableEq

inductive PackError
  | download (error : Pack.Error)
  | idMismatch (want got : ID)
  | sizeMismatch (want : Int) (got : Nat)
  | list (error : Pack.Error)
  | blobs (id : ID) (errors : List BlobError)
  deriving DecidableEq

section Model

variable (r : PackReader)

/-- Check one blob.  The buffer is returned for the next one. -/
def checkBlob (id : ID) (packfile : Bytes) (position : Nat) (blob : Blob)
    (buf : Bytes) : Option (Option BlobError × Bytes) :=
  let buf := reserve buf blob.length
  match Pack.readAt packfile blob.offset blob.length with
  | .error error => some (some (.read position error), buf)
  | .ok data =>
    match openBuffer r.key (overwrite buf 0 data) blob.length with
    | none => none
    | some (.error reason, buf) => some (some (.decrypt position reason), buf)
    | some (.ok plaintext, buf) =>
      if r.hash plaintext ≠ blob.id then
        some (some (.idMismatch blob.id (r.hash plaintext)), buf)
      else if (r.idx.lookup blob.toBlobHandle).any fun pb =>
          pb.packID = id ∧ pb.offset = blob.offset ∧ pb.length = blob.length then
        some (none, buf)
      else some (some (.notInIndex blob.id), buf)

/-- The loop over the blobs, with the errors and the size so far. -/
def checkBlobs (id : ID) (packfile : Bytes) :
    List Blob → Nat → Bytes → List BlobError → Nat → Option (List BlobError × Nat)
  | [], _, _, errs, sizeFromBlobs => some (errs, sizeFromBlobs)
  | blob :: rest, position, buf, errs, sizeFromBlobs =>
    match checkBlob r id packfile position blob buf with
    | none => none
    | some (err, buf) =>
      checkBlobs id packfile rest (position + 1) buf (errs ++ err.toList)
        (sizeFromBlobs + blob.length)

def checkPack (id : ID) (size : Int) : Option (Option PackError) :=
  match r.be id with
  | .error error => some (some (.download error))
  | .ok packfile =>
    if r.hash packfile ≠ id then some (some (.idMismatch id (r.hash packfile)))
    else if (packfile.length : Int) ≠ size then
      some (some (.sizeMismatch size packfile.length))
    else
      match Pack.list r.key packfile size.toNat with
      | .error error => some (some (.list error))
      | .ok (blobs, hdrSize) =>
        match checkBlobs r id packfile blobs 0 [] [] hdrSize with
        | none => none
        | some (errs, sizeFromBlobs) =>
          let errs :=
            if (sizeFromBlobs : Int) ≠ size then
              errs ++ [.sizeMismatch size sizeFromBlobs]
            else errs
          some (if errs ≠ [] then some (.blobs id errs) else none)

end Model

/-! ## The blobs -/

section Blobs

variable (r : PackReader) (id : ID) (packfile : Bytes)

def Intact (blob : Blob) : Prop :=
  ∃ plaintext, Decrypts r.key (slice packfile blob.offset blob.length)
    plaintext ∧ r.hash plaintext = blob.id

def Indexed (blob : Blob) : Prop :=
  ∃ pb ∈ r.idx.lookup blob.toBlobHandle,
    pb.packID = id ∧ pb.offset = blob.offset ∧ pb.length = blob.length

variable {r id packfile}

theorem checkBlob_eq_none {blob : Blob} (position : Nat) (buf : Bytes) :
    (∃ buf', checkBlob r id packfile position blob buf = some (none, buf')) ↔
      blob.offset + blob.length ≤ packfile.length ∧
        Intact r packfile blob ∧ Indexed r id blob := by
  unfold checkBlob
  dsimp only
  by_cases hbounds : blob.offset + blob.length ≤ packfile.length
  · have hlength := slice_length hbounds
    rw [Pack.readAt_ok hbounds]
    dsimp only
    constructor
    · rintro ⟨buf', h⟩
      split at h
      · cases h
      · cases h
      · rename_i plaintext _ hbuffer
        obtain ⟨hopen, -⟩ := (openBuffer_eq_ok hlength).mp hbuffer
        split at h
        · cases h
        · rename_i hhash
          split at h
          · rename_i hany
            refine ⟨hbounds, ⟨plaintext, hopen, not_not.mp hhash⟩, ?_⟩
            simpa [Indexed] using hany
          · cases h
    · rintro ⟨-, ⟨plaintext, hopen, hhash⟩, hindexed⟩
      have hany : (r.idx.lookup blob.toBlobHandle).any (fun pb =>
          pb.packID = id ∧ pb.offset = blob.offset ∧
            pb.length = blob.length) := by
        simpa [Indexed] using hindexed
      simp only [(openBuffer_eq_ok hlength).mpr ⟨hopen, rfl⟩, hhash, ne_eq,
        not_true_eq_false, if_false, hany, if_true]
      exact ⟨_, rfl⟩
  · cases hread : Pack.readAt packfile blob.offset blob.length with
    | error err => simp [hbounds]
    | ok data =>
      -- an empty blob behind the end of the file
      have hempty : blob.length = 0 :=
        (Pack.exists_readAt_iff.mp ⟨data, hread⟩).resolve_left hbounds
      have hshort : openBuffer r.key (overwrite (reserve buf blob.length) 0 data)
          blob.length = none := by simp [openBuffer, hempty, ivSize]
      simp [hshort, hbounds]

theorem checkBlobs_errs {blobs : List Blob} {position : Nat} {buf : Bytes}
    {errs errs' : List BlobError} {size size' : Nat}
    (h : checkBlobs r id packfile blobs position buf errs size =
      some (errs', size')) : errs <+: errs' := by
  induction blobs generalizing position buf errs size with
  | nil =>
    cases h
    exact List.prefix_rfl
  | cons blob rest ih =>
    rw [checkBlobs] at h
    split at h
    · cases h
    · exact (List.prefix_append _ _).trans (ih h)

theorem checkBlobs_eq_nil {blobs : List Blob} {position : Nat} {buf : Bytes} {size size' : Nat} :
    checkBlobs r id packfile blobs position buf [] size = some ([], size') ↔
      (∀ blob ∈ blobs, blob.offset + blob.length ≤ packfile.length ∧
        Intact r packfile blob ∧ Indexed r id blob) ∧
      size' = size + (blobs.map (·.length)).sum := by
  induction blobs generalizing position buf size with
  | nil => simp [checkBlobs, eq_comm]
  | cons blob rest ih =>
    rw [List.forall_mem_cons, ← checkBlob_eq_none position buf, checkBlobs]
    cases hblob : checkBlob r id packfile position blob buf with
    | none => simp
    | some result =>
      obtain ⟨err, buf'⟩ := result
      cases err with
      | none => simp [ih, Nat.add_assoc]
      | some err =>
        simp only [Option.some.injEq, Prod.mk.injEq, reduceCtorEq,
          false_and, exists_false, iff_false]
        intro h
        simpa using checkBlobs_errs h

end Blobs

/-! ## The pack -/

section Pack

variable {r : PackReader} {id : ID} {size : Int}

structure Passes (r : PackReader) (id : ID) (size : Int) (packfile : Bytes)
    (blobs : List Blob) (hdrSize : Nat) : Prop where
  loads : r.be id = .ok packfile
  hash : r.hash packfile = id
  length : packfile.length = size
  lists : Pack.list r.key packfile packfile.length = .ok (blobs, hdrSize)
  intact : ∀ blob ∈ blobs, Intact r packfile blob
  indexed : ∀ blob ∈ blobs, Indexed r id blob
  sizes : (blobs.map (·.length)).sum + hdrSize = packfile.length

theorem Passes.bounds {packfile : Bytes} {blobs : List Blob} {hdrSize : Nat}
    (h : Passes r id size packfile blobs hdrSize) {blob : Blob} (hblob : blob ∈ blobs) :
    blob.offset + blob.length ≤ packfile.length := by
  rw [← (Pack.list_spec h.lists).1] at hblob
  have := Pack.end_le_of_mem_relocate hblob
  have := h.sizes
  omega

theorem checkPack_eq_nil : checkPack r id size = some none ↔
      ∃ packfile blobs hdrSize, Passes r id size packfile blobs hdrSize := by
  constructor
  · intro h
    unfold checkPack at h
    split at h
    · cases h
    rename_i packfile hloads
    split at h
    · cases h
    rename_i hhash
    split at h
    · cases h
    rename_i hsize
    rw [not_not] at hhash hsize
    have hnat : size.toNat = packfile.length := by omega
    rw [hnat] at h
    split at h
    · cases h
    rename_i blobs hdrSize hlists
    split at h
    · cases h
    rename_i errs sizeFromBlobs hblobs
    -- neither the loop nor the sum has found an error
    obtain ⟨rfl, hsum⟩ : errs = [] ∧ (sizeFromBlobs : Int) = size := by
      by_cases hsum : (sizeFromBlobs : Int) = size <;> simp_all
    obtain ⟨hall, htotal⟩ := checkBlobs_eq_nil.mp hblobs
    exact ⟨packfile, blobs, hdrSize, hloads, hhash, hsize, hlists,
      fun b hb => (hall b hb).2.1, fun b hb => (hall b hb).2.2, by omega⟩
  · rintro ⟨packfile, blobs, hdrSize, h⟩
    have hnat : size.toNat = packfile.length := by
      have := h.length
      omega
    have hblobs : checkBlobs r id packfile blobs 0 [] [] hdrSize = some ([], packfile.length) := by
      refine checkBlobs_eq_nil.mpr ⟨fun b hb => ?_, ?_⟩
      · exact ⟨h.bounds hb, h.intact b hb, h.indexed b hb⟩
      · rw [← h.sizes, Nat.add_comm]
    simp [checkPack, h.loads, h.hash, h.length, hnat, h.lists, hblobs]

/-- A pack passes the check if and only if it is what its ID, its expected size,
its header and the index say.  Then every blob can be loaded through the entry
of the index for this pack. -/
theorem checkPack_spec (r : PackReader) (id : ID) (size : Int) :
    (checkPack r id size = some none ↔
      ∃ packfile blobs hdrSize, Passes r id size packfile blobs hdrSize) ∧
    (checkPack r id size = some none →
      ∀ packfile blobs hdrSize, r.be id = .ok packfile →
        Pack.list r.key packfile packfile.length = .ok (blobs, hdrSize) →
        ∀ blob ∈ blobs, ∀ pb ∈ r.idx.lookup blob.toBlobHandle,
          pb.packID = id → pb.offset = blob.offset →
          pb.length = blob.length → ∀ count buf lastError,
          ∃ plaintext, Decrypts r.key
              (slice packfile blob.offset blob.length) plaintext ∧
            r.hash plaintext = blob.id ∧
            r.loadFrom blob.id count [pb] buf lastError = some (.ok plaintext)) := by
  refine ⟨checkPack_eq_nil, fun hnil packfile blobs hdrSize hloads hlists => ?_⟩
  obtain ⟨packfile', blobs', hdrSize', h⟩ := checkPack_eq_nil.mp hnil
  obtain rfl : packfile = packfile' := by simpa using hloads.symm.trans h.loads
  obtain ⟨rfl, rfl⟩ : blobs = blobs' ∧ hdrSize = hdrSize' := by
    simpa using hlists.symm.trans h.lists
  intro blob hblob pb _ hpack hoffset hlength count buf lastError
  obtain ⟨plaintext, hopen, hhash⟩ := h.intact blob hblob
  refine ⟨plaintext, hopen, hhash, ?_⟩
  apply r.loadFrom_singleton
  · rw [hpack]
    exact h.loads
  · rw [hoffset, hlength]
    exact h.bounds hblob
  · rw [hoffset, hlength]
    exact hopen
  · exact hhash

end Pack

end Rapi.Checker
