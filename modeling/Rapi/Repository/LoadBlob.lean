import Rapi.Foundation.FileSystem
import Rapi.Pack.Reader
import Rapi.Repository.MasterIndex

/-!
# Loading blobs

`LoadBlob` looks a blob up in the index and tries its packs one after the other.
All of them are read into the same buffer, which is given as the whole array
behind the slice of the source.  Slicing behind the end of a short blob panics;
then there is no result.
-/

namespace Rapi.Repository

open Foundation Crypto Restic

/-- `be` loads pack files, and `cache` knows which of them are cached. -/
structure PackReader where
  key : Key
  hash : Bytes → ID
  idx : MasterIndex
  be : ID → Except Pack.Error Bytes
  cache : Option (ID → Bool)

inductive LoadError
  | notFound (id : ID)
  | readFull (packID : ID) (error : Pack.Error)
  | wrongLength (id : ID) (want got : Nat)
  | decrypting (id : ID) (reason : OpenError)
  | invalidHash (id : ID)
  | fromPacks (id : ID) (count : Nat)
  deriving DecidableEq

def reserve (buf : Bytes) (length : Nat) : Bytes :=
  if buf.length < length then List.replicate length 0 else buf

def openBuffer (k : Key) (buf : Bytes) (length : Nat) : Option (Except OpenError Bytes × Bytes) :=
  if length < ivSize then none
  else
    let data := buf.take length
    match k.open (data.take ivSize) (data.drop ivSize) with
    | .error reason => some (.error reason, buf)
    | .ok plaintext => some (.ok plaintext, overwrite buf ivSize plaintext)

def sortCachedPacksFirst (cache : Option (ID → Bool)) (blobs : List PackedBlob) : List PackedBlob :=
  match cache with
  | none => blobs
  | some has =>
    if blobs.length = 1 then blobs
    else blobs.filter (has ·.packID) ++ blobs.filter (!has ·.packID)

namespace PackReader

variable (r : PackReader)

def readAt (packID : ID) (offset length : Nat) : Except Pack.Error Bytes := do
  Pack.readAt (← r.be packID) offset length

/-- The loop over the packs; `count` is the number of all of them. -/
def loadFrom (id : ID) (count : Nat) :
    List PackedBlob → Bytes → Option LoadError → Option (Except LoadError Bytes)
  | [], _, lastError => some (.error (lastError.getD (.fromPacks id count)))
  | blob :: rest, buf, _ =>
    let buf := reserve buf blob.length
    match r.readAt blob.packID blob.offset blob.length with
    | .error error => loadFrom id count rest buf (some (.readFull blob.packID error))
    | .ok data =>
      let buf := overwrite buf 0 data
      if data.length ≠ blob.length then
        loadFrom id count rest buf (some (.wrongLength id blob.length data.length))
      else
        match openBuffer r.key buf blob.length with
        | none => none
        | some (.error reason, buf) => loadFrom id count rest buf (some (.decrypting id reason))
        | some (.ok plaintext, buf) =>
          if r.hash plaintext ≠ id then
            loadFrom id count rest buf (some (.invalidHash id))
          else
            some (.ok ((overwrite buf 0 plaintext).take plaintext.length))

def loadBlob (t : BlobType) (id : ID) (buf : Bytes) : Option (Except LoadError Bytes) :=
  let blobs := r.idx.lookup ⟨id, t⟩
  if blobs = [] then some (.error (.notFound id))
  else r.loadFrom id blobs.length (sortCachedPacksFirst r.cache blobs) buf none

end PackReader

/-! ## Buffers -/

/-- The encrypted bytes of a blob decrypt to a text. -/
def Decrypts (k : Key) (data plaintext : Bytes) : Prop :=
  k.open (data.take ivSize) (data.drop ivSize) = .ok plaintext

variable {data plaintext : Bytes} {length : Nat}

theorem Decrypts.length_eq {k : Key} (h : Decrypts k data plaintext) :
    data.length = plaintext.length + extension := by
  have hlength := Key.length_of_open h
  have hmac : 0 < macSize := by decide
  rw [List.length_drop] at hlength
  rw [extension]
  omega

theorem Decrypts.ivSize_le {k : Key} (h : Decrypts k data plaintext) : ivSize ≤ data.length := by
  rw [h.length_eq, extension]
  omega

theorem openBuffer_eq_ok {k : Key} {buf buf' : Bytes} (hlength : data.length = length) :
    openBuffer k (overwrite buf 0 data) length = some (.ok plaintext, buf') ↔
      Decrypts k data plaintext ∧
        buf' = overwrite (overwrite buf 0 data) ivSize plaintext := by
  subst hlength
  unfold openBuffer
  dsimp only
  rw [take_overwrite]
  split
  · rename_i hshort
    refine ⟨nofun, fun h => absurd h.1.ivSize_le (by omega)⟩
  · unfold Decrypts
    cases hopen : k.open (data.take ivSize) (data.drop ivSize) with
    | error reason => simp
    | ok text =>
      simp only [Option.some.injEq, Prod.mk.injEq, Except.ok.injEq]
      constructor
      · rintro ⟨rfl, rfl⟩
        exact ⟨rfl, rfl⟩
      · rintro ⟨rfl, rfl⟩
        exact ⟨rfl, rfl⟩

theorem PackReader.loadFrom_singleton (r : PackReader) {pb : PackedBlob} {packfile : Bytes}
    (hbe : r.be pb.packID = .ok packfile) (hbounds : pb.offset + pb.length ≤ packfile.length)
    (hopen : Decrypts r.key (slice packfile pb.offset pb.length) plaintext) {id : ID}
    (hhash : r.hash plaintext = id) (count : Nat) (buf : Bytes) (lastError : Option LoadError) :
    r.loadFrom id count [pb] buf lastError = some (.ok plaintext) := by
  have hread : r.readAt pb.packID pb.offset pb.length =
      .ok (slice packfile pb.offset pb.length) := by
    rw [readAt, hbe]
    exact Pack.readAt_ok hbounds
  have hlength : (slice packfile pb.offset pb.length).length = pb.length := slice_length hbounds
  rw [loadFrom, hread]
  simp only [hlength, ne_eq, not_true_eq_false, if_false,
    (openBuffer_eq_ok hlength).mpr ⟨hopen, rfl⟩, hhash, take_overwrite]

end Rapi.Repository
