import Rapi.Checker.CheckPack
import Rapi.Repository.AnyCopy
import Rapi.Repository.LoadCallbacks
import Rapi.Repository.Repack
import Rapi.Restorer.FileRestorer

/-!
# Data that is too short

Whoever decrypts something first cuts the nonce off.  `Open` checks that there
is a MAC in the rest, but nobody checks that there is a nonce: with less than 16
bytes the slice is out of range.  The header of a pack is the one place that is
guarded.  Where a result is an option here, it is missing after a panic.
-/

namespace Rapi.Checker

open Foundation Crypto Restic Repository Nat

/-! ## Keys -/

structure KeyFile where
  kdf : Bytes
  n : Nat
  r : Nat
  p : Nat
  salt : Bytes
  data : Bytes

/-- The texts of key files and of master keys, and the key derivation. -/
structure KeyCodec (Master : Type) where
  unmarshal : Bytes → Option KeyFile
  deriveKey : (n r p : Nat) → (salt password : Bytes) → Option Key
  unmarshalMaster : Bytes → Option Master
  valid : Master → Bool

inductive OpenKeyError
  | load
  | unmarshal
  | unsupportedKDF
  | kdf
  | open (reason : OpenError)
  | unmarshalMaster
  | invalid

section OpenKey

variable {Master : Type} (c : KeyCodec Master)

/-- The master key in the data of a key file. -/
def openMaster (user : Key) (data : Bytes) : Option (Except OpenKeyError Master) :=
  match user.decrypt data with
  | none => none
  | some (.error reason) => some (.error (.open reason))
  | some (.ok buf) =>
    match c.unmarshalMaster buf with
    | none => some (.error .unmarshalMaster)
    | some master =>
      if c.valid master then some (.ok master) else some (.error .invalid)

/-- `OpenKey`, with what the backend has under the name of the key. -/
def openKey (file : Option Bytes) (password : Bytes) : Option (Except OpenKeyError Master) :=
  match file with
  | none => some (.error .load)
  | some text =>
    match c.unmarshal text with
    | none => some (.error .unmarshal)
    | some k =>
      if k.kdf ≠ ascii "scrypt" then some (.error .unsupportedKDF)
      else
        match c.deriveKey k.n k.r k.p k.salt password with
        | none => some (.error .kdf)
        | some user => openMaster c user k.data

/-- The data that is decrypted when a key is opened, and with what. -/
def Unlocks (file : Option Bytes) (password : Bytes) (user : Key) (data : Bytes) : Prop :=
  ∃ text k, file = some text ∧ c.unmarshal text = some k ∧
    k.kdf = ascii "scrypt" ∧
    c.deriveKey k.n k.r k.p k.salt password = some user ∧ k.data = data

variable {c} {file : Option Bytes} {password : Bytes}

variable {user : Key} {data : Bytes}

theorem openKey_eq (h : Unlocks c file password user data) :
    openKey c file password = openMaster c user data := by
  obtain ⟨text, k, rfl, hparse, hkdf, hderive, rfl⟩ := h
  simp [openKey, hparse, hkdf, hderive]

theorem openKey_cases (c : KeyCodec Master) (file : Option Bytes) (password : Bytes) :
    (∃ err, openKey c file password = some (.error err)) ∨
      ∃ user data, Unlocks c file password user data := by
  cases file with
  | none => exact .inl ⟨_, rfl⟩
  | some text =>
    cases hparse : c.unmarshal text with
    | none => exact .inl ⟨.unmarshal, by simp [openKey, hparse]⟩
    | some k =>
      by_cases hkdf : k.kdf = ascii "scrypt"
      · cases hderive : c.deriveKey k.n k.r k.p k.salt password with
        | none => exact .inl ⟨.kdf, by simp [openKey, hparse, hkdf, hderive]⟩
        | some user => exact .inr ⟨user, k.data, text, k, rfl, hparse, hkdf, hderive, rfl⟩
      · exact .inl ⟨.unsupportedKDF, by simp [openKey, hparse, hkdf]⟩

theorem openMaster_eq_none : openMaster c user data = none ↔ data.length < ivSize := by
  rw [← Key.decrypt_eq_none, openMaster]
  obtain hnone | reason | buf := user.decrypt data
  · simp
  · simp
  · dsimp only
    split
    · simp
    · split <;> simp

theorem extension_le_of_openMaster {master : Master}
    (h : openMaster c user data = some (.ok master)) : extension ≤ data.length := by
  unfold openMaster at h
  split at h
  · cases h
  · cases h
  · rename_i buf hdecrypt
    rw [Key.length_of_decrypt hdecrypt]
    omega

theorem openKey_safe_iff : openKey c file password ≠ none ∧
        (∀ user data, Unlocks c file password user data → data.length < extension →
          ∃ err, openKey c file password = some (.error err)) ↔
      ∀ user data, Unlocks c file password user data → ivSize ≤ data.length := by
  constructor
  · rintro ⟨hsome, -⟩ user data hdata
    rw [openKey_eq hdata, Ne, openMaster_eq_none] at hsome
    exact not_lt.mp hsome
  · intro hlong
    have hsome : openKey c file password ≠ none := by
      obtain ⟨err, herr⟩ | ⟨user, data, hdata⟩ := openKey_cases c file password
      · simp [herr]
      · rw [openKey_eq hdata, Ne, openMaster_eq_none, not_lt]
        exact hlong user data hdata
    refine ⟨hsome, ?_⟩
    intro user data hdata hshort
    rw [openKey_eq hdata] at hsome ⊢
    obtain ⟨result, hresult⟩ := Option.ne_none_iff_exists'.mp hsome
    cases result with
    | error err => exact ⟨err, hresult⟩
    | ok master => exact absurd (extension_le_of_openMaster hresult) (not_le.mpr hshort)

end OpenKey

/-! ## Files -/

section Files

variable {ε : Type} {key : Key} {hash : Bytes → ID} {t : FileType} {id : ID} {data : Bytes}

theorem decryptLoaded_panics :
    Callbacks.decryptLoaded (ε := ε) key hash t id data = .error .panics ↔
      (t = .config ∨ hash data = id) ∧ data.length < ivSize := by
  unfold Callbacks.decryptLoaded
  by_cases hname : t = .config ∨ hash data = id
  · have hpass : ¬(t ≠ .config ∧ hash data ≠ id) := by tauto
    rw [if_neg hpass]
    by_cases hshort : data.length < ivSize
    · simp [hshort, hname]
    · rw [if_neg hshort]
      cases key.open (data.take ivSize) (data.drop ivSize) <;> simp [hshort]
  · have hfail : t ≠ .config ∧ hash data ≠ id := not_or.mp hname
    rw [if_pos hfail]
    simp [hname]

theorem extension_le_of_decryptLoaded {plaintext : Bytes}
    (h : Callbacks.decryptLoaded (ε := ε) key hash t id data = .ok plaintext) :
    extension ≤ data.length := by
  unfold Callbacks.decryptLoaded at h
  split at h
  · cases h
  · split at h
    · cases h
    · cases hopen : key.open (data.take ivSize) (data.drop ivSize) with
      | error reason => simp [hopen] at h
      | ok buf =>
        rw [Decrypts.length_eq hopen]
        omega

theorem decryptLoaded_safe_iff :
    Callbacks.decryptLoaded (ε := ε) key hash t id data ≠ .error .panics ∧
        (data.length < extension → ∃ err,
          Callbacks.decryptLoaded (ε := ε) key hash t id data = .error err) ↔
      (t = .config ∨ hash data = id → ivSize ≤ data.length) := by
  rw [Ne, decryptLoaded_panics, not_and, not_lt]
  refine and_iff_left ?_
  intro hshort
  cases hresult : Callbacks.decryptLoaded (ε := ε) key hash t id data with
  | error err => exact ⟨err, rfl⟩
  | ok plaintext => exact absurd (extension_le_of_decryptLoaded hresult) (not_le.mpr hshort)

end Files

/-! ## Blobs -/

section LoadBlob

variable {key : Key} {hash : Bytes → ID} {cache : Option (ID → Bool)} {id : ID}

variable {candidates : List Candidate}

theorem loadCandidates_eq_none {count : Nat} (buf : Scratch)
    (lastError : Option Repository.LoadError) :
    loadCandidates key hash id count candidates buf lastError = none ↔
      TriesShort key hash id candidates := by
  induction candidates generalizing buf lastError with
  | nil => simp [loadCandidates, TriesShort]
  | cons c rest ih =>
    rw [triesShort_cons, loadCandidates]
    cases hread : c.read with
    | error failure => simp [ih, Candidate.plaintext, hread]
    | ok data =>
      have hlength : data.length = c.blob.length := c.complete data hread
      by_cases hshort : c.blob.length < ivSize
      · simp [openBuffer, hlength, hshort, Scratch.len_resize]
      · have hdata : ivSize ≤ data.length := by
          rw [hlength]
          exact not_lt.mp hshort
        simp only [Scratch.len_resize, ← hlength, ne_eq, not_true_eq_false,
          if_false, openBuffer_overwrite hdata, not_lt.mpr hdata, and_false, false_or]
        cases hopen : key.open (data.take ivSize) (data.drop ivSize) with
        | error reason => simp [ih, Candidate.plaintext, hread, hopen]
        | ok plaintext =>
          simp only [slice_decrypted hdata, take_overwrite]
          by_cases hhash : hash plaintext = id
          · simp [Candidate.plaintext, hread, hopen, hhash]
          · simp [ih, Candidate.plaintext, hread, hopen, hhash]

theorem loadBlobInto_eq_none (buf : Scratch) :
    loadBlobInto key hash cache id candidates buf = none ↔
      TriesShort key hash id (sortCandidates cache candidates) := by
  unfold loadBlobInto
  split
  · rename_i hnone
    simp [hnone, sortCandidates_nil, TriesShort]
  · exact loadCandidates_eq_none buf none

theorem loadBlobInto_safe_iff {buf : Scratch} :
    loadBlobInto key hash cache id candidates buf ≠ none ∧
        ((∀ c ∈ candidates, c.blob.length < extension) →
          ∃ err, loadBlobInto key hash cache id candidates buf = some (.error err)) ↔
      ¬TriesShort key hash id (sortCandidates cache candidates) := by
  rw [Ne, loadBlobInto_eq_none]
  refine and_iff_left_of_imp ?_
  intro hlong hshort
  obtain ⟨result, hrun, hresult⟩ := loadBlobInto_eq hlong buf
  cases result with
  | error err => exact ⟨err, hrun⟩
  | ok p =>
    obtain ⟨c, hc, data, hread, hopen, -⟩ := Candidate.exists_of_findSome? ((hresult p).mp rfl)
    have hlength := Decrypts.length_eq hopen
    rw [c.complete data hread] at hlength
    exact absurd (hshort c hc) (by omega)

end LoadBlob

section Repack

open Repository.Repack

variable {r : Repo} {content : Bytes}

abbrev NoPanic (op : Repository.Op ⊕ Repack.Op) : Prop := op ≠ .inr .panic

theorem saveKept_noPanic (bh : BlobHandle) (plaintext : Bytes) :
    (saveKept r bh plaintext).All NoPanic := by
  refine .perform nofun fun taken => ?_
  cases taken with
  | false => trivial
  | true =>
    refine .bind (.lift (fun _ => nofun) _) fun result => ?_
    obtain ⟨_, _, err⟩ := result
    cases err with
    | none => exact .perform nofun fun _ => trivial
    | some err => trivial

variable {entry : Blob}

theorem processBlob_all_iff {P : Repository.Op ⊕ Repack.Op → Prop}
    (hhas : P (.inr (.has entry.toBlobHandle))) (hfault : P (.inr .systemFault)) :
    (processBlob r content entry).All P ↔ (processKept r content entry).All P := by
  constructor
  · intro h
    exact (h.2 true).2 false
  · intro h
    refine .perform hhas fun found => ?_
    cases found with
    | false => trivial
    | true =>
      refine .perform hfault fun fault => ?_
      cases fault with
      | false => exact h
      | true => trivial

theorem processBlob_noPanic_iff : (processBlob r content entry).All NoPanic ↔
      (entry.offset + entry.length ≤ content.length ∨ entry.length = 0 →
        ivSize ≤ entry.length) := by
  rw [processBlob_all_iff nofun nofun, processKept]
  rw [← Pack.exists_readAt_iff]
  split
  · simp [Prog.All, pure, *]
  · rename_i buf hread
    rw [forall_prop_of_true ⟨buf, hread⟩, ← Pack.length_of_readAt hread, ← not_lt,
      ← @Key.decrypt_eq_none r.key]
    split
    · rename_i hnone
      simp [Repack.panicked, Prog.All, hnone]
    · rename_i hdecrypt
      simp [Prog.All, pure, hdecrypt]
    · rename_i hdecrypt
      simp only [hdecrypt, reduceCtorEq, not_false_eq_true, iff_true]
      split
      · exact saveKept_noPanic _ _
      · trivial

/-- The blobs before it need not be in `keepBlobs`, so each blob may be reached. -/
theorem processBlobs_noPanic_iff {blobs : List Blob} : (processBlobs r content blobs).All NoPanic ↔
      ∀ entry ∈ blobs, entry.offset + entry.length ≤ content.length ∨ entry.length = 0 →
        ivSize ≤ entry.length := by
  induction blobs with
  | nil => simp [processBlobs, Prog.All, pure]
  | cons entry rest ih =>
    rw [List.forall_mem_cons, ← ih, ← processBlob_noPanic_iff]
    constructor
    · intro h
      exact ⟨h.left, h.2 false⟩
    · rintro ⟨hentry, hrest⟩
      refine hentry.bind fun err => ?_
      cases err with
      | none => exact hrest
      | some err => trivial

/-- The blob is in `keepBlobs` whenever a worker looks it up. -/
def Kept : (op : Repository.Op ⊕ Repack.Op) → Sum.elim Repository.Op.Res Repack.Op.Res op → Prop
  | .inr (.has _), found => found = true
  | _, _ => True

theorem processBlob_short (hshort : entry.length < extension) :
    (processBlob r content entry).Returns Kept (· ≠ none) := by
  rintro found (rfl : found = true) fault -
  cases fault with
  | true => rintro ⟨⟩
  | false =>
    change (processKept r content entry).Returns Kept (· ≠ none)
    unfold processKept
    split
    · rintro ⟨⟩
    · rename_i buf hread
      split
      · rintro ⟨⟩
      · rintro ⟨⟩
      · rename_i plaintext hdecrypt
        have hlength := Key.length_of_decrypt hdecrypt
        rw [Pack.length_of_readAt hread] at hlength
        exact absurd hshort (by omega)

end Repack

section CheckPack

variable {r : PackReader} {id : ID} {size : Int} {packfile : Bytes}

theorem checkBlob_panics {blob : Blob} (position : Nat) (buf : Bytes) :
    checkBlob r id packfile position blob buf = none ↔
      (blob.offset + blob.length ≤ packfile.length ∨ blob.length = 0) ∧
        blob.length < ivSize := by
  unfold checkBlob
  rw [← Pack.exists_readAt_iff]
  cases hread : Pack.readAt packfile blob.offset blob.length with
  | error err => simp
  | ok data =>
    have hlength := Pack.length_of_readAt hread
    by_cases hshort : blob.length < ivSize
    · simp [openBuffer, hshort]
    · have hlong : ivSize ≤ data.length := by
        rw [hlength]
        exact not_lt.mp hshort
      have hbuffer := @openBuffer_overwrite _ r.key hlong (reserve buf blob.length)
      rw [hlength] at hbuffer
      dsimp only
      rw [hbuffer]
      cases r.key.open _ _ with
      | error reason => simp [hshort]
      | ok plaintext =>
        simp only [hshort, and_false, iff_false]
        split
        · rintro ⟨⟩
        · split <;> rintro ⟨⟩

theorem checkBlobs_panics {blobs : List Blob} (position : Nat) (buf : Bytes)
    (errs : List BlobError) (sizeFromBlobs : Nat) :
    checkBlobs r id packfile blobs position buf errs sizeFromBlobs = none ↔ ∃ blob ∈ blobs,
        (blob.offset + blob.length ≤ packfile.length ∨ blob.length = 0) ∧
        blob.length < ivSize := by
  induction blobs generalizing position buf errs sizeFromBlobs with
  | nil => simp [checkBlobs]
  | cons blob rest ih =>
    rw [List.exists_mem_cons_iff, ← @checkBlob_panics r id packfile blob position buf, checkBlobs]
    cases checkBlob r id packfile position blob buf with
    | none => simp
    | some result => simp [ih]

/-- The blobs that are checked, after the pack was found to be the right one. -/
structure Listed (r : PackReader) (id : ID) (size : Int) (packfile : Bytes)
    (blobs : List Blob) : Prop where
  loads : r.be id = .ok packfile
  hash : r.hash packfile = id
  length : packfile.length = size
  lists : ∃ hdrSize, Pack.list r.key packfile packfile.length = .ok (blobs, hdrSize)

theorem checkPack_panics : checkPack r id size = none ↔
      ∃ packfile blobs, Listed r id size packfile blobs ∧
        ∃ blob ∈ blobs, (blob.offset + blob.length ≤ packfile.length ∨ blob.length = 0) ∧
          blob.length < ivSize := by
  constructor
  · intro h
    unfold checkPack at h
    split at h
    · cases h
    rename_i packfile hloads
    split at h
    · cases h
    rename_i hhash
    split at h
    · cases h
    rename_i hsize
    rw [not_not] at hhash hsize
    have hnat : size.toNat = packfile.length := by omega
    rw [hnat] at h
    split at h
    · cases h
    rename_i blobs hdrSize hlists
    split at h
    · rename_i hblobs
      exact ⟨packfile, blobs, ⟨hloads, hhash, hsize, hdrSize, hlists⟩,
        (checkBlobs_panics _ _ _ _).mp hblobs⟩
    · cases h
  · rintro ⟨packfile, blobs, ⟨hloads, hhash, hsize, hdrSize, hlists⟩, hshort⟩
    have hnat : size.toNat = packfile.length := by omega
    have hblobs : checkBlobs r id packfile blobs 0 [] [] hdrSize = none :=
      (checkBlobs_panics 0 [] [] hdrSize).mpr hshort
    simp [checkPack, hloads, hhash, hsize, hnat, hlists, hblobs]

theorem checkPack_safe_iff : checkPack r id size ≠ none ∧
        (∀ packfile blobs, Listed r id size packfile blobs →
          (∃ blob ∈ blobs, blob.length < extension) →
          ∃ err, checkPack r id size = some (some err)) ↔
      ∀ packfile blobs, Listed r id size packfile blobs → ∀ blob ∈ blobs,
        blob.offset + blob.length ≤ packfile.length ∨ blob.length = 0 → ivSize ≤ blob.length := by
  have hpanics : checkPack r id size ≠ none ↔
      ∀ packfile blobs, Listed r id size packfile blobs → ∀ blob ∈ blobs,
        blob.offset + blob.length ≤ packfile.length ∨ blob.length = 0 → ivSize ≤ blob.length := by
    rw [Ne, checkPack_panics]
    push Not
    rfl
  rw [hpanics]
  refine and_iff_left_of_imp ?_
  rintro hlong packfile blobs hlisted ⟨blob, hblob, hshort⟩
  obtain ⟨result, hresult⟩ := Option.ne_none_iff_exists'.mp (hpanics.mpr hlong)
  cases result with
  | some err => exact ⟨err, hresult⟩
  | none =>
    obtain ⟨packfile', blobs', hdrSize, hpasses⟩ := checkPack_eq_nil.mp hresult
    obtain ⟨hdrSize', hlists⟩ := hlisted.lists
    obtain rfl : packfile = packfile' := by simpa using hlisted.loads.symm.trans hpasses.loads
    obtain ⟨rfl, -⟩ : blobs = blobs' ∧ hdrSize' = hdrSize := by
      simpa using hlists.symm.trans hpasses.lists
    obtain ⟨plaintext, hopen, -⟩ := hpasses.intact blob hblob
    have hlength := hopen.length_eq
    rw [slice_length (hpasses.bounds hblob)] at hlength
    exact absurd hshort (by omega)

end CheckPack

section Restorer

open Restorer

variable {r : FileRestorer} {blobID : ID} {buf : Bytes}

theorem decryptBlob_safe_iff : r.decryptBlob blobID buf ≠ none ∧
        (buf.length < extension → ∃ err, r.decryptBlob blobID buf = some (.error err)) ↔
      ivSize ≤ buf.length := by
  rw [Ne, FileRestorer.decryptBlob_eq_none, not_lt]
  refine and_iff_left_of_imp ?_
  intro hlong hshort
  cases hresult : r.decryptBlob blobID buf with
  | none => exact absurd (FileRestorer.decryptBlob_eq_none.mp hresult) (not_lt.mpr hlong)
  | some result =>
    cases result with
    | error err => exact ⟨err, rfl⟩
    | ok plaintext =>
      have hlength := Key.length_of_decrypt (FileRestorer.decryptBlob_ok hresult).2
      exact absurd hshort (by omega)

end Restorer

/-! ## The size of a blob -/

theorem lookupSize_le_iff {idx : Index} {bh : BlobHandle} {e : IndexEntry}
    {n : Nat} (he : (idx.byType bh.type).get bh.id = some e)
    (hn : idx.lookupSize bh = some n) : n ≤ e.length ↔ extension ≤ e.length := by
  rw [Index.lookupSize, he] at hn
  obtain rfl : (((e.length : Int) - extension) % 2 ^ 64).toNat = n := by simpa using hn
  have hextension : extension = 32 := rfl
  rw [hextension]
  omega

/-! ## All callers -/

/-- Data that is too short for a nonce and a MAC is an error for each caller, and
a size is not above that of the ciphertext, as long as nonces are complete and
no entry of the index is shorter than what encryption adds. -/
theorem short_data_iff {ε Master : Type} (g : Growth) (key : Key)
    (hash : Bytes → ID) (t : FileType) (id : ID) (c : KeyCodec Master)
    (cache : Option (ID → Bool)) (repo : Repo) (reader : PackReader)
    (restorer : Restorer.FileRestorer) :
    (∀ (failed : List (Callbacks.Attempt ε)) last m (buf : Slice) data,
      (∀ attempt ∈ failed,
        Callbacks.Fails (Callbacks.readAll g) (fun _ => True) attempt) →
      Callbacks.Completes data last → buf.len = 0 →
      (Callbacks.loadAndDecrypt g key hash t id failed last m buf ≠
            .error .panics ∧
          (data.length < 32 → ∃ err,
            Callbacks.loadAndDecrypt g key hash t id failed last m buf = .error err) ↔
        (t = .config ∨ hash data = id → 16 ≤ data.length))) ∧
    (∀ file password,
      openKey c file password ≠ none ∧
          (∀ user data, Unlocks c file password user data → data.length < 32 →
            ∃ err, openKey c file password = some (.error err)) ↔
        ∀ user data, Unlocks c file password user data → 16 ≤ data.length) ∧
    (∀ candidates buf,
      loadBlobInto key hash cache id candidates buf ≠ none ∧
          ((∀ c ∈ candidates, c.blob.length < 32) → ∃ err,
            loadBlobInto key hash cache id candidates buf = some (.error err)) ↔
        ¬TriesShort key hash id (sortCandidates cache candidates)) ∧
    (∀ content blobs,
      (Repack.processBlobs repo content blobs).All NoPanic ∧
          (∀ entry ∈ blobs, entry.length < 32 →
            (Repack.processBlob repo content entry).Returns Kept (· ≠ none)) ↔
        ∀ entry ∈ blobs,
          entry.offset + entry.length ≤ content.length ∨ entry.length = 0 →
            16 ≤ entry.length) ∧
    (∀ id size,
      checkPack reader id size ≠ none ∧
          (∀ packfile blobs, Listed reader id size packfile blobs →
            (∃ blob ∈ blobs, blob.length < 32) →
            ∃ err, checkPack reader id size = some (some err)) ↔
        ∀ packfile blobs, Listed reader id size packfile blobs →
          ∀ blob ∈ blobs,
            blob.offset + blob.length ≤ packfile.length ∨ blob.length = 0 →
              16 ≤ blob.length) ∧
    (∀ blobID buf,
      restorer.decryptBlob blobID buf ≠ none ∧
          (buf.length < 32 →
            ∃ err, restorer.decryptBlob blobID buf = some (.error err)) ↔
        16 ≤ buf.length) ∧
    ∀ (idx : Index) bh e n, (idx.byType bh.type).get bh.id = some e →
      idx.lookupSize bh = some n → (n ≤ e.length ↔ 32 ≤ e.length) := by
  refine ⟨?_, ?_, ?_, ?_, ?_, ?_, ?_⟩
  · intro failed last m buf data hfailed hlast hbuf
    rw [Callbacks.loadAndDecrypt_eq g key hash t id hfailed hlast m hbuf]
    exact decryptLoaded_safe_iff
  · intro file password
    exact openKey_safe_iff
  · intro candidates buf
    exact loadBlobInto_safe_iff
  · intro content blobs
    rw [processBlobs_noPanic_iff]
    exact and_iff_left fun entry _ hshort => processBlob_short hshort
  · intro id size
    exact checkPack_safe_iff
  · intro blobID buf
    exact decryptBlob_safe_iff
  · intro idx bh e n
    exact lookupSize_le_iff

/-! ## A config file that is cut off -/

def oneEntry (length : Nat) : Option Index :=
  (Index.new (fun _ _ => 0) 0).storePack (.ofNat 1) [⟨⟨.ofNat 2, .data⟩, length, 0⟩]

def plainCodec : KeyCodec Unit where
  unmarshal data := some ⟨ascii "scrypt", 1, 1, 1, [], data⟩
  deriveKey _ _ _ _ _ := some sampleKey
  unmarshalMaster _ := some ()
  valid _ := true

def emptyReader : PackReader where
  key := sampleKey
  hash _ := .null
  idx := .new (fun _ _ => 0) 0
  be _ := .error .eof
  cache := none

def failingRestorer : Restorer.FileRestorer where
  key := sampleKey
  hash _ := .null
  idx _ := []
  idx_handle := by simp
  dst := []
  writeToFile _ := none
  error _ failure := some failure

/-- A config of three bytes, a key with one byte, a blob of no bytes and the size
of a blob without ciphertext. -/
theorem short_data_panics :
    Callbacks.loadAndDecrypt Callbacks.sampleGrowth sampleKey (fun _ => .null)
        .config .null [] Callbacks.sampleSuccess ⟨[]⟩ ⟨none, 0⟩ =
      .error .panics ∧
    openKey plainCodec (some [0]) [] = none ∧
    failingRestorer.decryptBlob .null [] = none ∧
    (oneEntry 0).bind (·.lookupSize ⟨.ofNat 2, .data⟩) = some (2 ^ 64 - 32) := by
  refine ⟨?_, ?_, ?_, ?_⟩
  · have hlast : Callbacks.Completes [3, 4, 5] Callbacks.sampleSuccess := ⟨[[3], [4, 5]], rfl, rfl⟩
    rw [Callbacks.loadAndDecrypt_eq _ _ _ _ _ (by simp) hlast _ rfl, decryptLoaded_panics]
    decide
  · have hunlocks : Unlocks plainCodec (some [0]) [] sampleKey [0] :=
      ⟨[0], _, rfl, rfl, rfl, rfl, rfl⟩
    rw [openKey_eq hunlocks, openMaster_eq_none]
    decide
  · decide
  · decide

def twentyBytes : Bytes := List.replicate 20 0

theorem short_data_iff_sample :
    (∃ err, openKey plainCodec (some twentyBytes) [] = some (.error err)) ∧
    ∃ err, failingRestorer.decryptBlob .null twentyBytes = some (.error err) := by
  have hsafe := short_data_iff (ε := Unit) Callbacks.sampleGrowth sampleKey
    (fun _ => .null) .config .null plainCodec none
    ⟨sampleKey, fun _ => .null, true, none⟩ emptyReader failingRestorer
  have hlength : twentyBytes.length < 32 := by decide
  constructor
  · have hunlocks : ∀ user data,
        Unlocks plainCodec (some twentyBytes) [] user data → data = twentyBytes := by
      rintro user data ⟨text, k, htext, hparse, -, -, rfl⟩
      cases htext
      cases hparse
      rfl
    have hopen := (hsafe.2.1 (some twentyBytes) []).mpr fun user data hdata => by
      rw [hunlocks user data hdata]
      decide
    exact hopen.2 sampleKey twentyBytes ⟨twentyBytes, _, rfl, rfl, rfl, rfl, rfl⟩ hlength
  · exact ((hsafe.2.2.2.2.2.1 .null twentyBytes).mpr (by decide)).2 hlength

end Rapi.Checker
