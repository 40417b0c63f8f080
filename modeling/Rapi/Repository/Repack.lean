import Rapi.Foundation.Composition
import Rapi.Pack.Reader
import Rapi.Repository.SaveBlob

/-!
# Repacking

`Repack` downloads packs and saves the blobs of `keepBlobs` that are in them
again.  A goroutine feeds the pack IDs to eight downloaders, which check the
hash of what they get and hand it to eight workers; a worker looks a blob up in
`keepBlobs` before it decrypts it and once more before it saves it.  In the end
the repository is flushed.

The two channels are queues here: whatever happens with an unbuffered channel
happens with a queue as well.  A backend gives back the file that it stores, or
something with another hash, or nothing.  `processed` counts what `p.Add` is
called for, and `saved` is the debug log of saved blobs.
-/

namespace Rapi.Repository

open Foundation Crypto Restic

namespace Repack

def numRepackWorkers : Nat := 8

/-- A temporary file with a pack, and the hash of its content. -/
structure Job where
  hash : ID
  content : Bytes

structure State where
  downloadQueue : List ID
  downloadClosed : Bool
  downloadWG : Nat
  processQueue : List Job
  processClosed : Bool
  keepBlobs : Finset BlobHandle
  cancelled : Bool
  processed : Multiset ID
  saved : Multiset (BlobHandle × Bytes)

inductive Op
  | sendDownload (id : ID)
  | closeDownload
  | receiveDownload
  | download (id : ID)
  | sendProcess (job : Job)
  | downloadDone
  | waitDownloads
  | closeProcess
  | receiveProcess
  | systemFault
  | has (bh : BlobHandle)
  | take (bh : BlobHandle)
  | logSaved (bh : BlobHandle) (plaintext : Bytes)
  | progress (id : ID)
  | panic

abbrev Op.Res : Op → Type
  | .sendDownload _ => Bool
  | .closeDownload => Unit
  | .receiveDownload => Option ID
  | .download _ => Option Bytes
  | .sendProcess _ => Bool
  | .downloadDone => Unit
  | .waitDownloads => Unit
  | .closeProcess => Unit
  | .receiveProcess => Option Job
  | .systemFault => Bool
  | .has _ => Bool
  | .take _ => Bool
  | .logSaved _ _ => Unit
  | .progress _ => Unit
  | .panic => Empty

def exec (r : Repo) : (op : Op) → RepoState → State → op.Res → State → Prop
  | .sendDownload id, _, t, sent, t' =>
    sent = true ∧ t.downloadClosed = false ∧
        t' = { t with downloadQueue := t.downloadQueue ++ [id] } ∨
      sent = false ∧ t.cancelled ∧ t' = t
  | .closeDownload, _, t, _, t' => t' = { t with downloadClosed := true }
  | .receiveDownload, _, t, received, t' =>
    (∃ id rest, t.downloadQueue = id :: rest ∧ received = some id ∧
        t' = { t with downloadQueue := rest }) ∨
      t.downloadQueue = [] ∧ t.downloadClosed ∧ received = none ∧ t' = t
  | .download id, s, t, loaded, t' =>
    (∀ content, loaded = some content → r.hash content = id →
        s.packs.load id = some content) ∧ t' = t
  | .sendProcess job, _, t, sent, t' =>
    sent = true ∧ t.processClosed = false ∧
        t' = { t with processQueue := t.processQueue ++ [job] } ∨
      sent = false ∧ t.cancelled ∧ t' = t
  | .downloadDone, _, t, _, t' => t' = { t with downloadWG := t.downloadWG - 1 }
  | .waitDownloads, _, t, _, t' => t.downloadWG = 0 ∧ t' = t
  | .closeProcess, _, t, _, t' => t' = { t with processClosed := true }
  | .receiveProcess, _, t, received, t' =>
    (∃ job rest, t.processQueue = job :: rest ∧ received = some job ∧
        t' = { t with processQueue := rest }) ∨
      t.processQueue = [] ∧ t.processClosed ∧ received = none ∧ t' = t
  | .systemFault, _, t, _, t' => t' = t
  | .has bh, _, t, found, t' => found = decide (bh ∈ t.keepBlobs) ∧ t' = t
  | .take bh, _, t, found, t' =>
    found = decide (bh ∈ t.keepBlobs) ∧
      t' = { t with keepBlobs := t.keepBlobs.erase bh }
  | .logSaved bh plaintext, _, t, _, t' => t' = { t with saved := (bh, plaintext) ::ₘ t.saved }
  | .progress id, _, t, _, t' => t' = { t with processed := id ::ₘ t.processed }
  | .panic, _, _, _, _ => False

/-- The context is cancelled by the caller, or by a goroutine that fails. -/
def system (r : Repo) : System (RepoState × State) (Repository.Op ⊕ Op)
    (Sum.elim Repository.Op.Res Op.Res) :=
  Repository.system.extend (exec r) fun t t' => t' = { t with cancelled := true }

/-! ## The programs -/

abbrev RepackM := Prog (Repository.Op ⊕ Op) (Sum.elim Repository.Op.Res Op.Res)

def perform (op : Op) : RepackM op.Res := .onTop op

def panicked {α : Type} : RepackM α := .act (.inr .panic) nofun

inductive Error
  | cancelled
  | download
  | hashMismatch
  | list (err : Pack.Error)
  | readAt
  | open (err : OpenError)
  | wrongData
  | saveBlob (err : SaveError)
  | close
  | remove

def feeder : List ID → RepackM (Option Error)
  | [] => do
      perform .closeDownload
      return none
  | id :: rest => do
      if ← perform (.sendDownload id) then feeder rest
      else
        perform .closeDownload
        return some .cancelled

/-- `downloadWG` is told that a downloader ends. -/
def downloadEnds (err : Option Error) : RepackM (Option (Option Error)) := do
  perform .downloadDone
  return some err

def downloader (r : Repo) : RepackM (Option (Option Error)) := do
  match ← perform .receiveDownload with
  | none => downloadEnds none
  | some id =>
    match ← perform (.download id) with
    | none => downloadEnds (some .download)
    | some content =>
      if r.hash content = id then
        if ← perform (.sendProcess ⟨id, content⟩) then return none
        else downloadEnds (some .cancelled)
      else downloadEnds (some .hashMismatch)

def closer : RepackM (Option Error) := do
  perform .waitDownloads
  perform .closeProcess
  return none

/-- Save a blob, unless some other worker was faster. -/
def saveKept (r : Repo) (bh : BlobHandle) (plaintext : Bytes) : RepackM (Option Error) := do
  if ← perform (.take bh) then
    match ← (r.saveBlob bh.type plaintext bh.id true).lift with
    | (_, _, some err) => return some (.saveBlob err)
    | (_, _, none) =>
      perform (.logSaved bh plaintext)
      return none
  else return none

/-- What is done with a blob of `keepBlobs` when the temporary file is fine. -/
def processKept (r : Repo) (content : Bytes) (entry : Blob) : RepackM (Option Error) :=
  match Pack.readAt content entry.offset entry.length with
  | .error _ => return some .readAt
  | .ok buf =>
    match r.key.decrypt buf with
    | none => panicked
    | some (.error err) => return some (.open err)
    | some (.ok plaintext) =>
      if r.hash plaintext = entry.id then saveKept r entry.toBlobHandle plaintext
      else return some .wrongData

def processBlob (r : Repo) (content : Bytes) (entry : Blob) : RepackM (Option Error) := do
  if ← perform (.has entry.toBlobHandle) then
    if ← perform .systemFault then return some .readAt
    else processKept r content entry
  else return none

/-- The blobs of a pack, in the order of its header. -/
def processBlobs (r : Repo) (content : Bytes) : List Blob → RepackM (Option Error)
  | [] => return none
  | entry :: rest => do
      match ← processBlob r content entry with
      | some err => return some err
      | none => processBlobs r content rest

def worker (r : Repo) : RepackM (Option (Option Error)) := do
  match ← perform .receiveProcess with
  | none => return some none
  | some job =>
    if ← perform .systemFault then return some (some .readAt)
    else
      match Pack.list r.key job.content job.content.length with
      | .error err => return some (some (.list err))
      | .ok (blobs, _) =>
        match ← processBlobs r job.content blobs with
        | some err => return some (some err)
        | none =>
          if ← perform .systemFault then return some (some .close)
          else if ← perform .systemFault then return some (some .remove)
          else
            perform (.progress job.hash)
            return none

inductive Role
  | feeder
  | downloader (i : Fin numRepackWorkers)
  | closer
  | worker (i : Fin numRepackWorkers)
  deriving DecidableEq, Fintype

/-- The goroutines when `Repack` has started them; the set of packs is iterated
in any order. -/
def pool (r : Repo) (start : RepoState) (order : List ID) (keepBlobs : Finset BlobHandle) :
    Pool (RepoState × State) (Repository.Op ⊕ Op)
      (Sum.elim Repository.Op.Res Op.Res) (Option Error) Role where
  state := (start, ⟨[], false, numRepackWorkers, [], false, keepBlobs, false, 0, 0⟩)
  threads
    | .feeder => .once (feeder order)
    | .downloader _ => ⟨downloader r, downloader r⟩
    | .closer => .once closer
    | .worker _ => ⟨worker r, worker r⟩

/-- What the goroutines of `Repack` may return together. -/
def Waits (r : Repo) (start : RepoState) (packs : Finset ID) (keepBlobs : Finset BlobHandle)
    (results : Role → Option Error) (s : RepoState) (t : State) : Prop :=
  ∃ order final, order.Nodup ∧ order.toFinset = packs ∧
    Relation.ReflTransGen (Pool.Step (system r)) (pool r start order keepBlobs) final ∧
    final.Finished results ∧ final.state = (s, t)

end Repack

/-- `Repack` may return the set of obsolete packs or fail, in the given state;
`t` is the state of its goroutines, with what is left of `keepBlobs`. -/
inductive Repo.Repack (r : Repo) (start : RepoState) (packs : Finset ID)
    (keepBlobs : Finset BlobHandle) : Option (Finset ID) → Bool → RepoState → Repack.State → Prop
  | failed {results : Repack.Role → Option Repack.Error} {i : Repack.Role}
      {err : Repack.Error} {s : RepoState} {t : Repack.State} :
      Repack.Waits r start packs keepBlobs results s t →
      results i = some err → r.Repack start packs keepBlobs none true s t
  | unflushed {results : Repack.Role → Option Repack.Error} {err : SaveError}
      {s s' : RepoState} {t : Repack.State} : Repack.Waits r start packs keepBlobs results s t →
      (∀ i, results i = none) → Runs system r.flush s (some err) s' →
      r.Repack start packs keepBlobs none true s' t
  | done {results : Repack.Role → Option Repack.Error} {s s' : RepoState} {t : Repack.State} :
      Repack.Waits r start packs keepBlobs results s t →
      (∀ i, results i = none) → Runs system r.flush s none s' →
      r.Repack start packs keepBlobs (some packs) false s' t

end Rapi.Repository
