import Rapi.Foundation.FileSystem
import Rapi.Foundation.Program
import Rapi.Pack.Packer
import Rapi.Repository.MasterIndex

/-!
# Saving blobs

`SaveBlob` and `FlushPacks` as programs over the shared state of a repository.
The atomic actions are what the code does under one lock, and the calls of the
operating system and the backend, which may fail whenever they are made.  A
packer belongs to the call that took it out of the list of its manager, or to
the list; while `FlushPacks` holds the lock of a manager, the list is empty.

The temporary file of a packer has a position of its own, which is where the
next write goes; a failed upload leaves it anywhere.  Index files are kept as
the data that is serialized, and have any fresh name, since they are encrypted
with a random nonce.
-/

namespace Rapi.Repository

open Foundation Crypto Restic
open Pack (WriteFault)

/-! ## Packers -/

structure TempFile where
  content : Bytes
  position : Nat
  closed : Bool

def TempFile.write (file : TempFile) (data : Bytes) : TempFile :=
  { file with
    content := overwrite file.content file.position data
    position := file.position + data.length }

/-- `wr` of the packer is what the hash writer was given. -/
structure Packer where
  packer : Pack.Packer
  tmpfile : TempFile

namespace Packer

def new : Packer := ⟨.new, ⟨[], 0, false⟩⟩

def add (p : Packer) (t : BlobType) (id : ID) (data : Bytes)
    (fault : WriteFault) : Packer × Option Pack.Error :=
  let (packer, n, err) := p.packer.add t id data fault
  (⟨packer, p.tmpfile.write (data.take n)⟩, err)

def finalize (p : Packer) (k : Key) (nonce : Nonce) (headerFault lengthFault : WriteFault) :
    Packer × Except Pack.Error Nat :=
  let (packer, result) := p.packer.finalize k nonce headerFault lengthFault
  (⟨packer, p.tmpfile.write (packer.wr.drop p.packer.wr.length)⟩, result)

def seekTo (p : Packer) (position : Nat) : Packer :=
  { p with tmpfile := { p.tmpfile with position := position } }

def close (p : Packer) : Packer :=
  { p with tmpfile := { p.tmpfile with closed := true } }

end Packer

structure PackerManager where
  packers : List Packer
  locked : Bool

def minPackSize : Nat := 4 * 1024 * 1024

/-- The first packer, whose place the last one takes. -/
def takePacker : List Packer → Option (Packer × List Packer)
  | [] => none
  | p :: rest =>
    match rest.getLast? with
    | none => some (p, [])
    | some last => some (p, last :: rest.dropLast)

/-! ## The shared state and the actions -/

structure RepoState where
  idx : MasterIndex
  pm : BlobType → PackerManager
  packs : Store ID Bytes
  indexFiles : Store ID JsonIndex

def RepoState.setManager (s : RepoState) (t : BlobType) (pm : PackerManager) : RepoState :=
  { s with pm := Function.update s.pm t pm }

inductive Op
  | addPending (bh : BlobHandle)
  | newRandomNonce
  | findPacker (t : BlobType)
  | insertPacker (t : BlobType) (p : Packer)
  | writeFault (closed : Bool)
  | seekFault (closed : Bool)
  | savePack (id : ID) (content : Bytes) (intact : Bool)
  | systemFault
  | storePack (id : ID) (blobs : List Blob)
  | finalizeFullIndexes
  | finalizeNotFinalIndexes
  | saveIndexFile (file : JsonIndex)
  | mergeFinalIndexes
  | lockPackers (t : BlobType)
  | unlockPackers (t : BlobType) (packers : List Packer)
  | panic

abbrev Op.Res : Op → Type
  | .addPending _ => Bool
  | .newRandomNonce => Nonce
  | .findPacker _ => Option Packer
  | .insertPacker _ _ => Unit
  | .writeFault _ => WriteFault
  | .seekFault _ => Option Nat
  | .savePack _ _ _ => Option Nat
  | .systemFault => Bool
  | .storePack _ _ => Unit
  | .finalizeFullIndexes => List Index
  | .finalizeNotFinalIndexes => List Index
  | .saveIndexFile _ => Bool
  | .mergeFinalIndexes => Option Index.MergeError
  | .lockPackers _ => List Packer
  | .unlockPackers _ _ => Unit
  | .panic => Empty

def exec : (op : Op) → RepoState → op.Res → RepoState → Prop
  | .addPending bh, s, new, s' => ∃ mi, s.idx.addPending bh = (new, mi) ∧ s' = { s with idx := mi }
  | .newRandomNonce, s, _, s' => s' = s
  | .findPacker t, s, found, s' =>
    (s.pm t).locked = false ∧
      match takePacker (s.pm t).packers with
      | some (p, rest) => found = some p ∧ s' = s.setManager t ⟨rest, false⟩
      | none => (found = some .new ∨ found = none) ∧ s' = s
  | .insertPacker t p, s, _, s' =>
    (s.pm t).locked = false ∧ s' = s.setManager t ⟨(s.pm t).packers ++ [p], false⟩
  -- nothing can be written to a closed file
  | .writeFault closed, s, fault, s' => (closed → fault = some 0) ∧ s' = s
  -- the position in the file where a failed call leaves it
  | .seekFault closed, s, fault, s' => (closed → fault.isSome) ∧ s' = s
  -- a backend with a hash rejects a file that has another one
  | .savePack id content intact, s, fault, s' =>
    fault = none ∧ id ∉ s.packs.names ∧ intact ∧
        s' = { s with packs := s.packs.save id content } ∨
      -- a failed call may leave a file behind
      fault.isSome ∧ (s' = s ∨ id ∉ s.packs.names ∧
        ∃ part, s' = { s with packs := s.packs.save id part })
  | .systemFault, s, _, s' => s' = s
  | .storePack id blobs, s, _, s' =>
    ∃ seed now mi, s.idx.storePack id blobs (.new seed now) = some mi ∧
      s' = { s with idx := mi }
  | .finalizeFullIndexes, s, chosen, s' =>
    ∃ now mi, s.idx.finalizeFullIndexes now = (chosen, mi) ∧ s' = { s with idx := mi }
  | .finalizeNotFinalIndexes, s, chosen, s' =>
    ∃ mi, s.idx.finalizeNotFinalIndexes = (chosen, mi) ∧ s' = { s with idx := mi }
  | .saveIndexFile file, s, failed, s' =>
    (∃ id, id ∉ s.indexFiles.names ∧
        s' = { s with indexFiles := s.indexFiles.save id file }) ∨
      failed = true ∧ s' = s
  | .mergeFinalIndexes, s, err, s' =>
    match s.idx.mergeFinalIndexes with
    | .ok mi => err = none ∧ s' = { s with idx := mi }
    | .error failure => err = some failure ∧ s' = s
  | .lockPackers t, s, packers, s' =>
    (s.pm t).locked = false ∧ packers = (s.pm t).packers ∧
      s' = s.setManager t ⟨[], true⟩
  | .unlockPackers t packers, s, _, s' => s' = s.setManager t ⟨(s.pm t).packers ++ packers, false⟩
  | .panic, _, _, _ => False

def system : System RepoState Op Op.Res where
  exec := exec
  env _ _ := False

/-! ## The programs -/

/-- `hasher` is the hash of the backend, if it has one. -/
structure Repo where
  key : Key
  hash : Bytes → ID
  noAutoIndexUpdate : Bool
  hasher : Option (Bytes → Bytes) := none

inductive SaveError
  | tempFile
  | write
  | finalize (err : Pack.Error)
  | seek
  | savePack
  | closeTempFile
  | removeTempFile
  | saveIndex
  | mergeIndexes (err : Index.MergeError)

abbrev RepoM := Prog Op Op.Res

def perform (op : Op) : RepoM op.Res := .perform op

def panicked {α : Type} : RepoM α := .act .panic nofun

/-- `saveIndex`: save the indexes and merge. -/
def saveIndexes : List Index → RepoM (Option SaveError)
  | [] => do
      match ← perform .mergeFinalIndexes with
      | some err => return some (.mergeIndexes err)
      | none => return none
  | idx :: rest =>
    match idx.encode with
    | none => panicked
    | some file => do
        if ← perform (.saveIndexFile file) then return some .saveIndex
        else saveIndexes rest

def saveFullIndex : RepoM (Option SaveError) := do
  let indexes ← perform .finalizeFullIndexes
  saveIndexes indexes

def saveIndex : RepoM (Option SaveError) := do
  let indexes ← perform .finalizeNotFinalIndexes
  saveIndexes indexes

namespace Repo

variable (r : Repo)

/-- The part of `savePacker` after the pack is in the backend. -/
def storePacker (id : ID) (p : Packer) : RepoM (Packer × Option SaveError) := do
  if ← perform .systemFault then return (p.close, some .closeTempFile)
  else if ← perform .systemFault then return (p.close, some .removeTempFile)
  else
    perform (.storePack id p.packer.blobs)
    if r.noAutoIndexUpdate then return (p.close, none)
    else
      let err ← saveFullIndex
      return (p.close, err)

/-- The hash of all that was written is the hash of the file. -/
def intact (p : Packer) : Bool := r.hasher.all fun hash => hash p.tmpfile.content = hash p.packer.wr

/-- The packer is changed in place. -/
def savePacker (p : Packer) : RepoM (Packer × Option SaveError) := do
  let nonce ← perform .newRandomNonce
  let headerFault ← perform (.writeFault p.tmpfile.closed)
  let lengthFault ← perform (.writeFault p.tmpfile.closed)
  match p.finalize r.key nonce headerFault lengthFault with
  | (p, .error err) => return (p, some (.finalize err))
  | (p, .ok _) =>
    let id := r.hash p.packer.wr
    match ← perform (.seekFault p.tmpfile.closed) with
    | some position => return (p.seekTo position, some .seek)
    | none =>
      match ← perform (.savePack id p.tmpfile.content (r.intact p)) with
      | some position => return (p.seekTo position, some .savePack)
      | none => r.storePacker id p

def saveAndEncrypt (t : BlobType) (data : Bytes) (id : ID) : RepoM (Option SaveError) := do
  let nonce ← perform .newRandomNonce
  let ciphertext := r.key.encrypt nonce data
  if t = .invalid then panicked
  else
    match ← perform (.findPacker t) with
    | none => return some .tempFile
    | some packer =>
      let fault ← perform (.writeFault packer.tmpfile.closed)
      match packer.add t id ciphertext fault with
      | (_, some _) => return some .write
      | (packer, none) =>
        if packer.packer.size < minPackSize then
          perform (.insertPacker t packer)
          return none
        else
          let (_, err) ← r.savePacker packer
          return err

def saveBlob (t : BlobType) (buf : Bytes) (id : ID) (storeDuplicate : Bool) :
    RepoM (ID × Bool × Option SaveError) := do
  let newID := if id.isNull then r.hash buf else id
  let new ← perform (.addPending ⟨newID, t⟩)
  if new || storeDuplicate then
    let err ← r.saveAndEncrypt t buf newID
    return (newID, !new, err)
  else return (newID, !new, none)

/-- Save the packers of a manager until one fails. -/
def savePackers : List Packer → RepoM (List Packer × Option SaveError)
  | [] => return ([], none)
  | p :: rest => do
      match ← r.savePacker p with
      | (p, some err) => return (p :: rest, some err)
      | (p, none) =>
        let (rest, err) ← savePackers rest
        return (p :: rest, err)

def flushManager (t : BlobType) : RepoM (Option SaveError) := do
  let packers ← perform (.lockPackers t)
  match ← r.savePackers packers with
  | (packers, some err) =>
    perform (.unlockPackers t packers)
    return some err
  | (_, none) =>
    perform (.unlockPackers t [])
    return none

def flushPacks : RepoM (Option SaveError) := do
  match ← r.flushManager .data with
  | some err => return some err
  | none => r.flushManager .tree

def flush : RepoM (Option SaveError) := do
  match ← r.flushPacks with
  | some err => return some err
  | none =>
    if r.noAutoIndexUpdate then return none
    else saveIndex

end Repo

end Rapi.Repository
