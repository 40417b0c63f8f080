import Rapi.Foundation.FilePath
import Rapi.Foundation.Store
import Rapi.Restic.Blob

/-!
# Downloading a pack and writing its blobs to files

`downloadPack` collects the blobs of one pack that some files need, reads the
range of the pack that contains them as one stream, and writes each blob at all
its places.  What it does to its surroundings is a parameter, so that the same
definitions describe one call and workers that run concurrently.  The sets of files
and blobs are lists here, in an order that is not specified by the source.  The
stream delivers the part of the requested range that exists, and the hash of a blob
is a parameter.
-/

namespace Rapi.Restorer

open Foundation Restic

structure FileBlobInfo where
  id : ID
  offset : Int
  deriving DecidableEq

/-- A large file has its blobs sorted by pack. -/
inductive FileBlobs
  | ids (content : List ID)
  | packs (packsMap : Store ID (List FileBlobInfo))
  deriving DecidableEq

structure FileInfo where
  size : Int
  location : Bytes
  blobs : FileBlobs
  deriving DecidableEq

inductive Failure
  | unknownBlob (id : ID)
  | negativeCount
  | eof
  | unexpectedEOF
  | decryptingBlob (id : ID) (error : Crypto.OpenError)
  | invalidHash (id : ID)
  | invalidChildName (name : Bytes)
  | invalidPath
  | dirWithoutSubtree (treeID : ID)
  | invalidFileSize (target : Bytes) (expected got : Nat)
  | unableToFetchBlob (id : ID)
  | unexpectedContent (target : Bytes) (offset : Nat)
  | canceled
  | deadlineExceeded
  | other (text : String)
  deriving DecidableEq

structure Write where
  path : Bytes
  data : Bytes
  offset : Int
  createSize : Option Int
  deriving DecidableEq

structure FileRestorer where
  key : Crypto.Key
  hash : Bytes → ID
  idx : BlobHandle → List PackedBlob
  idx_handle : ∀ h, ∀ packed ∈ idx h, packed.toBlobHandle = h
  dst : Bytes
  writeToFile : Write → Option Failure
  error : Bytes → Failure → Option Failure

structure Use where
  file : FileInfo
  blob : Blob
  fileOffset : Int
  deriving DecidableEq

structure PackInfo where
  id : ID
  files : List FileInfo
  deriving DecidableEq

namespace FileRestorer

variable (r : FileRestorer)

def targetPath (location : Bytes) : Bytes := FilePath.join r.dst location

/-- The index entries that `forEachBlob` visits. -/
def forEachBlob : List ID → Except Failure (List PackedBlob)
  | [] => .ok []
  | id :: rest =>
    match r.idx ⟨id, .data⟩ with
    | [] => .error (.unknownBlob id)
    | packed :: _ =>
      match forEachBlob rest with
      | .error failure => .error failure
      | .ok entries => .ok (packed :: entries)

/-! ## The blobs that are needed -/

/-- The places of the blobs that are in the given pack. -/
def placesIn (packID : ID) (file : FileInfo) : Int → List PackedBlob → List Use
  | _, [] => []
  | fileOffset, packed :: entries =>
    let rest := placesIn packID file
      (fileOffset + packed.length - Crypto.extension) entries
    if packed.packID = packID then ⟨file, packed.toBlob, fileOffset⟩ :: rest
    else rest

def fileUses (packID : ID) (file : FileInfo) : Except Failure (List Use) :=
  match file.blobs with
  | .ids content =>
    match r.forEachBlob content with
    | .error failure => .error failure
    | .ok entries => .ok (placesIn packID file 0 entries)
  | .packs packsMap =>
    .ok (((packsMap.load packID).getD []).filterMap fun blob =>
      ((r.idx ⟨blob.id, .data⟩).find? (·.packID = packID)).map fun packed =>
        ⟨file, packed.toBlob, blob.offset⟩)

def allUses (packID : ID) : List FileInfo → Except Failure (List Use)
  | [] => .ok []
  | file :: files =>
    match r.fileUses packID file with
    | .error failure => .error failure
    | .ok uses =>
      match allUses packID files with
      | .error failure => .error failure
      | .ok rest => .ok (uses ++ rest)

def rangeStart (uses : List Use) : Nat := (uses.map (·.blob.offset)).foldl min (2 ^ 63 - 1)

def rangeEnd (uses : List Use) : Nat :=
  (uses.map fun use => use.blob.offset + use.blob.length).foldl max 0

def sortedBlobs (uses : List Use) : List Blob :=
  (uses.map Use.blob).dedup.insertionSort (·.offset ≤ ·.offset)

/-! ## Reading and writing -/

def sanitizeError (file : FileInfo) (failure : Option Failure) : Option Failure :=
  failure.bind (r.error file.location)

/-- Without a result the slices are out of range. -/
def decryptBlob (blobID : ID) (buf : Bytes) : Option (Except Failure Bytes) :=
  match r.key.decrypt buf with
  | none => none
  | some (.error error) => some (.error (.decryptingBlob blobID error))
  | some (.ok plaintext) =>
    if r.hash plaintext = blobID then some (.ok plaintext)
    else some (.error (.invalidHash blobID))

section DecryptBlob

variable {r : FileRestorer} {blobID : ID} {buf plaintext : Bytes}

theorem decryptBlob_eq_none : r.decryptBlob blobID buf = none ↔ buf.length < Crypto.ivSize := by
  rw [← Crypto.Key.decrypt_eq_none, decryptBlob]
  obtain hnone | err | plaintext := r.key.decrypt buf
  · simp
  · simp
  · dsimp only
    split <;> simp

theorem decryptBlob_ok (h : r.decryptBlob blobID buf = some (.ok plaintext)) :
    r.hash plaintext = blobID ∧ r.key.decrypt buf = some (.ok plaintext) := by
  unfold decryptBlob at h
  split at h
  · cases h
  · cases h
  · rename_i found hdecrypt
    split at h
    · rename_i hhash
      cases h
      exact ⟨hhash, hdecrypt⟩
    · cases h

end DecryptBlob

end FileRestorer

/-- What `downloadPack` does to its surroundings; `range` is the order in which a map
is iterated. -/
structure Effects (m : Type → Type) where
  rangeFiles : List FileInfo → m (List FileInfo)
  rangePlaces : List Use → m (List Use)
  writePlace (blobData : Bytes) (use : Use) : m (Option Failure)
  fail : Failure → m Unit
  panic {α : Type} : m α

namespace Effects

variable {m : Type → Type} [Monad m] (e : Effects m) (r : FileRestorer)

def failed (failure : Failure) : m (Option Failure) := do
  e.fail failure
  return some failure

def writePlaces (blobData : Bytes) : List Use → m (Option Failure)
  | [] => return none
  | use :: places => do
      match r.sanitizeError use.file (← e.writePlace blobData use) with
      | some failure => return some failure
      | none => writePlaces blobData places

/-- The function passed to the pack loader, from the next blob on. -/
def restoreBlobs (uses : List Use) : List Blob → Bytes → Nat → m (Option Failure)
  | [], _, _ => return none
  | blob :: rest, rd, currentBlobEnd =>
    if blob.offset < currentBlobEnd then e.failed .negativeCount
    else if rd.length < blob.offset - currentBlobEnd then e.failed .eof
    else
      let rd := rd.drop (blob.offset - currentBlobEnd)
      if rd.length < blob.length then e.failed (if rd = [] then .eof else .unexpectedEOF)
      else
        match r.decryptBlob blob.id (rd.take blob.length) with
        | none => e.panic
        | some result => do
            let places ← e.rangePlaces (uses.filter (·.blob.id = blob.id))
            match result with
            | .error failure =>
              e.fail failure
              match places.findSome? (r.sanitizeError ·.file failure) with
              | some failure => return some failure
              | none =>
                -- `continue`: the position of the stream is not recorded
                restoreBlobs uses rest (rd.drop blob.length) currentBlobEnd
            | .ok blobData =>
              match ← e.writePlaces r blobData places with
              | some failure => return some failure
              | none => restoreBlobs uses rest (rd.drop blob.length) (blob.offset + blob.length)

/-- The end of `downloadPack` when loading the pack fails. -/
def reportFailure (pack : PackInfo) (failure : Failure) : m (Option Failure) := do
  let files ← e.rangeFiles pack.files
  return files.findSome? (r.sanitizeError · failure)

def downloadPack (packLoader : ID → Nat → Nat → m (Except Failure Bytes))
    (pack : PackInfo) : m (Option Failure) := do
  let files ← e.rangeFiles pack.files
  match r.allUses pack.id files with
  | .error _ => e.panic
  | .ok uses =>
    let start := FileRestorer.rangeStart uses
    let length := FileRestorer.rangeEnd uses - start
    match ← packLoader pack.id length start with
    | .error failure => e.reportFailure r pack failure
    | .ok rd =>
      match ← e.restoreBlobs r uses (FileRestorer.sortedBlobs uses) rd start with
      | some failure => e.reportFailure r pack failure
      | none => return none

end Effects

/-! ## A single call -/

structure Progress where
  inProgress : List FileInfo
  writes : List Write

namespace FileRestorer

variable (r : FileRestorer)

/-- The first write to a file creates it. -/
def writePlace (blobData : Bytes) (use : Use) (p : Progress) : Option Failure × Progress :=
  let write : Write :=
    { path := r.targetPath use.file.location
      data := blobData
      offset := use.fileOffset
      createSize := if use.file ∈ p.inProgress then none else some use.file.size }
  (r.writeToFile write,
    { inProgress := if use.file ∈ p.inProgress then p.inProgress
        else use.file :: p.inProgress
      writes := p.writes ++ [write] })

/-- Nothing runs at the same time; there is no result after a panic. -/
def alone : Effects (OptionT (StateM Progress)) where
  rangeFiles := pure
  rangePlaces := pure
  writePlace blobData use := modifyGet (r.writePlace blobData use)
  fail _ := pure ()
  panic := failure

def downloadPack (packID : ID) (content : Bytes) (files : List FileInfo)
    (p : Progress) : Option (Option Failure) × Progress :=
  (r.alone.downloadPack r (fun _ length offset => pure (.ok (slice content offset length)))
    ⟨packID, files⟩).run.run p

end FileRestorer

end Rapi.Restorer
