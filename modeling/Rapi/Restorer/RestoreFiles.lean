import Rapi.Foundation.Program
import Rapi.Restorer.RestoreTo

/-!
# Restoring files by concurrent workers

`restoreFiles` finds out which packs are needed and by which files, and hands
the packs to workers, each of which runs `downloadPack` on one pack after the
other.  The atomic actions of a worker are what the code does under one lock,
and the calls of the operating system and the backend, which may fail whenever
they are made.

The buckets of `filesWriter` are told apart by the path alone, so that together
they are one map from paths to open files.  An open file is known by its inode.
The order in which a map is iterated is an answer of the environment.  Only for
the proofs, the state also keeps what was done to the files, and all failures.
-/

namespace Rapi.Restorer.RestoreFiles

open Foundation Restic Function

def workerCount : Nat := 8

def largeFileBlobCount : Nat := 25

/-! ## The packs -/

/-- The blobs of a large file by pack, from a file offset on. -/
def addToPacksMap : Int → List PackedBlob → Store ID (List FileBlobInfo) →
    Store ID (List FileBlobInfo)
  | _, [], packsMap => packsMap
  | fileOffset, packed :: entries, packsMap =>
    addToPacksMap (fileOffset + packed.length - Crypto.extension) entries
      (packsMap.save packed.packID
        ((packsMap.load packed.packID).getD [] ++ [⟨packed.id, fileOffset⟩]))

/-- What becomes of `blobs` of a file when its packs are known. -/
def groupBlobs (content : List ID) (entries : List PackedBlob) (file : FileInfo) : FileInfo :=
  if largeFileBlobCount < content.length then
    { file with blobs := .packs (addToPacksMap 0 entries []) }
  else file

structure Packs where
  packs : Store ID PackInfo
  packOrder : List ID

def Packs.add (file : FileInfo) (s : Packs) (packID : ID) : Packs :=
  match s.packs.load packID with
  | some pack =>
    let files := if file ∈ pack.files then pack.files else pack.files ++ [file]
    { s with packs := s.packs.save packID { pack with files := files } }
  | none =>
    { packs := s.packs.save packID ⟨packID, [file]⟩
      packOrder := s.packOrder ++ [packID] }

/-- The loop that creates a `packInfo` for each pack. -/
def createPackInfo (r : FileRestorer) : List FileInfo → Packs → Except Failure Packs
  | [], s => .ok s
  | file :: files, s =>
    match file.blobs with
    | .packs _ => .error (.other "interface conversion")
    | .ids content =>
      match r.forEachBlob content with
      | .error failure => .error failure
      | .ok entries =>
        createPackInfo r files ((entries.map (·.packID)).foldl
          (Packs.add (groupBlobs content entries file)) s)

/-! ## The shared state and the actions -/

inductive Sender
  | sending
  | closed
  | canceled

structure State where
  unsent : List PackInfo
  sender : Sender
  fs : FileSystem
  locked : FileInfo → Bool
  inProgress : FileInfo → Bool
  files : Bytes → Option Nat
  users : Bytes → Nat
  events : List FileEvent
  failures : List Failure

def State.fail (s : State) (failure : Failure) : State :=
  { s with failures := s.failures ++ [failure] }

def State.writeTo (s : State) (wr : Nat) (offset : Int) (data : Bytes) : State :=
  let content := overwrite (s.fs.inodes wr) offset.toNat data
  { s with fs := s.fs.setContent wr content }

inductive Op
  | receive
  | rangeFiles (files : List FileInfo)
  | rangePlaces (places : List Use)
  | load (packID : ID) (length offset : Nat)
  | lock (file : FileInfo)
  | unlock (file : FileInfo)
  | getInProgress (file : FileInfo)
  | setInProgress (file : FileInfo)
  | acquireWriter (file : FileInfo) (createSize : Int)
  | writeAt (file : FileInfo) (wr : Nat) (blob : Bytes) (offset : Int)
  | releaseWriter (file : FileInfo)
  | fail (failure : Failure)
  | panic

abbrev Op.Res : Op → Type
  | .receive => Option PackInfo
  | .rangeFiles _ => List FileInfo
  | .rangePlaces _ => List Use
  | .load _ _ _ => Except Failure Bytes
  | .lock _ => Unit
  | .unlock _ => Unit
  | .getInProgress _ => Bool
  | .setInProgress _ => Unit
  | .acquireWriter _ _ => Except Failure Nat
  | .writeAt _ _ _ _ => Option Failure
  | .releaseWriter _ => Option Failure
  | .fail _ => Unit
  | .panic => Empty

variable (r : FileRestorer)

/-- What `acquireWriter` does when the file is not open. -/
def openFile (file : FileInfo) (createSize : Int) (s : State)
    (result : Except Failure Nat) (s' : State) : Prop :=
  let path := r.targetPath file.location
  (∃ failure, result = .error failure ∧ s' = s.fail failure) ∨
    ∃ fs wr allocated,
      runFileEvent r.dst s.fs (.create { file with size := createSize } allocated) = some fs ∧
      fs.lookup path = some wr ∧ result = .ok wr ∧
      s' = { s with
        fs := fs
        files := update s.files path (some wr)
        users := update s.users path 1
        events := if createSize < 0 then s.events
          else s.events ++ [.create file allocated] }

def exec (contents : ID → Bytes) : (op : Op) → State → op.Res → State → Prop
  | .receive, s, received, s' =>
    (∃ pack rest, s.sender = .sending ∧ s.unsent = pack :: rest ∧
        received = some pack ∧ s' = { s with unsent := rest }) ∨
      s.sender = .closed ∧ received = none ∧ s' = s
  | .rangeFiles files, s, order, s' => order.Perm files ∧ s' = s
  | .rangePlaces places, s, order, s' => order.Perm places ∧ s' = s
  | .load packID length offset, s, result, s' =>
    result = .ok (slice (contents packID) offset length) ∧ s' = s ∨
      ∃ failure, result = .error failure ∧ s' = s.fail failure
  | .lock file, s, _, s' =>
    s.locked file = false ∧ s' = { s with locked := update s.locked file true }
  | .unlock file, s, _, s' => s' = { s with locked := update s.locked file false }
  | .getInProgress file, s, result, s' => result = s.inProgress file ∧ s' = s
  | .setInProgress file, s, _, s' => s' = { s with inProgress := update s.inProgress file true }
  | .acquireWriter file createSize, s, result, s' =>
    let path := r.targetPath file.location
    match s.files path with
    | some wr => result = .ok wr ∧
        s' = { s with
          users := update s.users path (s.users path + 1) }
    | none => openFile r file createSize s result s'
  | .writeAt file wr blob offset, s, result, s' =>
    0 ≤ offset ∧ result = none ∧
        s' = { s.writeTo wr offset blob with
          events := s.events ++ [.write file offset.toNat blob] } ∨
      -- a failed call may have written a part
      ∃ failure n, result = some failure ∧
        s' = (s.writeTo wr offset (blob.take n)).fail failure
  | .releaseWriter file, s, result, s' =>
    let path := r.targetPath file.location
    if s.users path = 1 then
      let s := { s with
        files := update s.files path none
        users := update s.users path 0 }
      result = none ∧ s' = s ∨ ∃ failure, result = some failure ∧ s' = s.fail failure
    else
      result = none ∧ s' = { s with
        users := update s.users path (s.users path - 1) }
  | .fail failure, s, _, s' => s' = s.fail failure
  | .panic, _, _, _ => False

/-- The sender closes the channel when all packs are sent, and stops earlier
when the context is canceled. -/
def send (s s' : State) : Prop :=
  s.sender = .sending ∧
    (s.unsent = [] ∧ s' = { s with sender := .closed } ∨
      s.unsent ≠ [] ∧ s' = { s with sender := .canceled })

def system (contents : ID → Bytes) : System State Op Op.Res where
  exec := exec r contents
  env := send

/-! ## The programs -/

abbrev RestoreM := Prog Op Op.Res

def perform (op : Op) : RestoreM op.Res := .perform op

def panicked {α : Type} : RestoreM α := .act .panic nofun

/-- The part of `writeToFile` after the file is open. -/
def writeAndRelease (file : FileInfo) (wr : Nat) (blob : Bytes)
    (offset : Int) : RestoreM (Option Failure) := do
  match ← perform (.writeAt file wr blob offset) with
  | some failure =>
    let _ ← perform (.releaseWriter file)
    return some failure
  | none => perform (.releaseWriter file)

def writeToFile (file : FileInfo) (blob : Bytes) (offset createSize : Int) :
    RestoreM (Option Failure) := do
  match ← perform (.acquireWriter file createSize) with
  | .error failure => return some failure
  | .ok wr => writeAndRelease file wr blob offset

/-- The first write to a file creates it while holding the lock of the file. -/
def writePlace (blobData : Bytes) (use : Use) : RestoreM (Option Failure) := do
  perform (.lock use.file)
  if ← perform (.getInProgress use.file) then
    perform (.unlock use.file)
    writeToFile use.file blobData use.fileOffset (-1)
  else
    perform (.setInProgress use.file)
    let result ← writeToFile use.file blobData use.fileOffset use.file.size
    perform (.unlock use.file)
    return result

def effects : Effects RestoreM where
  rangeFiles files := perform (.rangeFiles files)
  rangePlaces places := perform (.rangePlaces places)
  writePlace := writePlace
  fail failure := perform (.fail failure)
  panic := panicked

def downloadPack (pack : PackInfo) : RestoreM (Option Failure) :=
  effects.downloadPack r (fun packID length offset => perform (.load packID length offset)) pack

def worker : RestoreM (Option (Option Failure)) := do
  match ← perform .receive with
  | none => return some none
  | some pack =>
    match ← downloadPack r pack with
    | some failure => return some (some failure)
    | none => return none

abbrev Workers := Pool State Op Op.Res (Option Failure) (Fin workerCount)

def start (packs : Packs) (order : List ID) (fs : FileSystem) : Workers where
  state :=
    { unsent := order.filterMap packs.packs.load
      sender := .sending
      fs := fs
      locked := fun _ => false
      inProgress := fun _ => false
      files := fun _ => none
      users := fun _ => 0
      events := []
      failures := [] }
  threads _ := ⟨worker r, worker r⟩

/-- A run of `restoreFiles` that returns nil, with the packs in any order. -/
structure Run (contents : ID → Bytes) (files : List FileInfo) (before : FileSystem) where
  packs : Packs
  order : List ID
  workers : Workers
  packs_eq : createPackInfo r files ⟨[], []⟩ = .ok packs
  order_perm : order.Perm packs.packOrder
  steps : Relation.ReflTransGen (Pool.Step (system r contents)) (start r packs order before) workers
  finished : workers.Finished fun _ => none
  closed : workers.state.sender = .closed

end Rapi.Restorer.RestoreFiles
