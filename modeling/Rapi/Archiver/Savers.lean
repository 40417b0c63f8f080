import Rapi.Archiver.Tree
import Rapi.Foundation.Composition
import Rapi.Repository.SaveBlob
import Rapi.Restic.Node

/-!
# The savers of the archiver

Blobs, files and trees are saved by workers.  Whoever needs a result sends a job
and gets a future.  `Wait` on a future comes back without a result when the
context is cancelled or the worker has closed the channel.  All futures are kept
in the state, with the job and the reply; a job whose channel was closed because
the context was cancelled when it should be sent is never taken.

There are two contexts: that of the goroutine which walks the targets, and the
one below it, which the workers use.  A tomb that dies cancels them one after
the other, in any order, and a parent is cancelled before its child.

What the file system, the repository and the error handler answer is up to the
environment.  It says in advance what is found below a directory and into which
chunks a file is cut, which makes the programs finite.
-/

namespace Rapi.Archiver

open Foundation
open Restic (ID BlobType BlobHandle NodeType TreeNode)
open Repository (Repo RepoState SaveError)

/-! ## Files and nodes -/

/-- What `Lstat` says, with the type for the mode. -/
structure FileInfo where
  name : Bytes
  type : NodeType
  size : Nat
  links : Nat
  inode : Nat
  deviceID : Nat
  modTime : Nat
  changeTime : Nat

def nodeFromFileInfo (fi : FileInfo) : TreeNode where
  name := fi.name
  type := fi.type
  size := if fi.type = .file then fi.size else 0
  links :=
    match fi.type with
    | .file | .symlink | .dev | .chardev => fi.links
    | _ => 0
  inode := fi.inode
  deviceID := fi.deviceID
  content := []
  subtree := none
  modTime := fi.modTime
  changeTime := fi.changeTime
  nilContent := true
  content_of_nil _ := rfl

inductive Error
  | canceled
  | deadlineExceeded
  | abs
  | lstat
  | readdirnames
  | nodeFromFileInfo
  | contentsMissing
  | openFile
  | stat
  | changedType
  | loadTree (id : ID)
  | wrongType
  | chunker
  | close
  | nodePresent (name : Bytes)
  | marshal
  | fileInfoPathEmpty
  | statDir
  | snapshotEmpty
  | saveBlob (err : SaveError)
  | fromHandler
  | wrapped (err : Error)

mutual

/-- What `Save` finds: the results of `Lstat` and `Select`, of opening the file
and asking it for its info again, and of reading the names of a directory. -/
inductive Item
  | absFails
  | excludedByName
  | lstatFails
  | found (fi : FileInfo) (selected : Bool) (file : Except Error FileInfo)
      (readable : Bool) (names : Items)

/-- The names in a directory, in lexicographic order. -/
inductive Items
  | nil
  | cons (name : Bytes) (item : Item) (rest : Items)

end

/-! ## Futures -/

inductive Ctx
  | main
  | workers
  deriving DecidableEq

inductive Reply (α : Type)
  | pending
  | closed
  | sent (value : α)

structure BlobSlot where
  ctx : Ctx
  type : BlobType
  buf : Bytes
  taken : Bool
  reply : Reply (ID × Bool)

structure SaveFileResponse where
  node : Option TreeNode
  err : Option Error

structure FileSlot where
  fi : FileInfo
  taken : Bool
  reply : Reply SaveFileResponse

inductive FutureNode
  | node (node : TreeNode)
  | file (i : Nat)
  | tree (i : Nat)

structure TreeSlot where
  node : TreeNode
  nodes : List FutureNode
  taken : Bool
  reply : Reply TreeNode

/-- `failed` says that a worker has closed a channel because of an error, which
it is going to return. -/
structure State where
  cancelled : Ctx → Bool
  failed : Bool
  blobs : List BlobSlot
  files : List FileSlot
  trees : List TreeSlot

/-- `treeOf` says which tree an ID stands for. -/
structure Config where
  repo : Repo
  marshal : Restic.Tree → Bytes
  treeOf : ID → Option Restic.Tree
  ignoreCtime : Bool
  ignoreInode : Bool
  saveBlobConcurrency : Nat
  fileReadConcurrency : Nat
  saveTreeConcurrency : Nat

/-! ## The actions -/

inductive Op
  | ctxErr (ctx : Ctx)
  | sendBlob (ctx : Ctx) (t : BlobType) (buf : Bytes)
  | waitBlob (ctx : Ctx) (i : Nat)
  | receiveBlob
  | replyBlob (i : Nat) (id : ID) (known : Bool)
  | closeBlob (i : Nat)
  | sendFile (fi : FileInfo)
  | waitFile (ctx : Ctx) (i : Nat)
  | receiveFile
  | replyFile (i : Nat) (response : SaveFileResponse)
  | sendTree (node : TreeNode) (nodes : List FutureNode)
  | waitTree (ctx : Ctx) (i : Nat)
  | receiveTree
  | replyTree (i : Nat) (node : TreeNode)
  | closeTree (i : Nat)
  | fails
  | handler (err : Error)
  | marshal (tree : Restic.Tree)
  | has (bh : BlobHandle)
  | loadTree (id : ID)
  | loadParentTree
  | lookAt (path : Bytes)
  | statDir (path : Bytes)
  | chunks
  | iterate (futures : List (Bytes × FutureNode))
  | kill

abbrev Op.Res : Op → Type
  | .ctxErr _ => Option Error
  | .sendBlob _ _ _ => Nat
  | .waitBlob _ _ => Option (ID × Bool)
  | .receiveBlob => Option (Nat × BlobType × Bytes)
  | .replyBlob _ _ _ => Unit
  | .closeBlob _ => Unit
  | .sendFile _ => Nat
  | .waitFile _ _ => Option SaveFileResponse
  | .receiveFile => Option (Nat × FileInfo)
  | .replyFile _ _ => Unit
  | .sendTree _ _ => Nat
  | .waitTree _ _ => Option TreeNode
  | .receiveTree => Option (Nat × TreeNode × List FutureNode)
  | .replyTree _ _ => Unit
  | .closeTree _ => Unit
  | .fails => Bool
  | .handler _ => Option Error
  | .marshal _ => Option Bytes
  | .has _ => Bool
  | .loadTree _ => Option Restic.Tree
  | .loadParentTree => Option Restic.Tree
  | .lookAt _ => Item
  | .statDir _ => Option FileInfo
  | .chunks => List Bytes × Bool
  | .iterate _ => List (Bytes × FutureNode)
  | .kill => Unit

/-- The result of `Wait`, for a channel with the given reply. -/
def Waits {α : Type} (cancelled : Bool) (reply : Option (Reply α)) (result : Option α) : Prop :=
  cancelled ∧ result = none ∨ reply = some .closed ∧ result = none ∨
    ∃ value, reply = some (.sent value) ∧ result = some value

/-- The reply of a new future: the job may be dropped when the context is
cancelled. -/
def Sends {α : Type} (cancelled : Bool) (taken : Bool) (reply : Reply α) : Prop :=
  taken = false ∧ reply = .pending ∨ cancelled ∧ taken ∧ reply = .closed

def exec (cfg : Config) : (op : Op) → RepoState → State → op.Res → State → Prop
  | .ctxErr ctx, _, t, err, t' => t' = t ∧
      if t.cancelled ctx then err = some .canceled ∨ err = some .deadlineExceeded
      else err = none
  | .sendBlob ctx type buf, _, t, i, t' => i = t.blobs.length ∧
      ∃ taken reply, Sends (t.cancelled ctx) taken reply ∧
        t' = { t with blobs := t.blobs ++ [⟨ctx, type, buf, taken, reply⟩] }
  | .waitBlob ctx i, _, t, result, t' => t' = t ∧
      Waits (t.cancelled ctx) (t.blobs[i]?.map BlobSlot.reply) result
  | .receiveBlob, _, t, job, t' =>
    t.cancelled .workers ∧ job = none ∧ t' = t ∨
      ∃ i slot, t.blobs[i]? = some slot ∧ slot.taken = false ∧
        job = some (i, slot.type, slot.buf) ∧
        t' = { t with blobs := t.blobs.set i { slot with taken := true } }
  | .replyBlob i id known, _, t, _, t' => ∃ slot, t.blobs[i]? = some slot ∧
      t' = { t with
        blobs := t.blobs.set i { slot with reply := .sent (id, known) } }
  | .closeBlob i, _, t, _, t' => ∃ slot, t.blobs[i]? = some slot ∧
      t' = { t with
        failed := true
        blobs := t.blobs.set i { slot with reply := .closed } }
  | .sendFile fi, _, t, i, t' => i = t.files.length ∧
      ∃ taken reply, Sends (t.cancelled .main) taken reply ∧
        t' = { t with files := t.files ++ [⟨fi, taken, reply⟩] }
  | .waitFile ctx i, _, t, result, t' => t' = t ∧
      Waits (t.cancelled ctx) (t.files[i]?.map FileSlot.reply) result
  | .receiveFile, _, t, job, t' =>
    t.cancelled .workers ∧ job = none ∧ t' = t ∨
      ∃ i slot, t.files[i]? = some slot ∧ slot.taken = false ∧
        job = some (i, slot.fi) ∧
        t' = { t with files := t.files.set i { slot with taken := true } }
  | .replyFile i response, _, t, _, t' => ∃ slot, t.files[i]? = some slot ∧
      t' = { t with
        files := t.files.set i { slot with reply := .sent response } }
  | .sendTree node nodes, _, t, i, t' => i = t.trees.length ∧
      ∃ taken reply, Sends (t.cancelled .main) taken reply ∧
        t' = { t with trees := t.trees ++ [⟨node, nodes, taken, reply⟩] }
  | .waitTree ctx i, _, t, result, t' => t' = t ∧
      Waits (t.cancelled ctx) (t.trees[i]?.map TreeSlot.reply) result
  | .receiveTree, _, t, job, t' =>
    t.cancelled .workers ∧ job = none ∧ t' = t ∨
      ∃ i slot, t.trees[i]? = some slot ∧ slot.taken = false ∧
        job = some (i, slot.node, slot.nodes) ∧
        t' = { t with trees := t.trees.set i { slot with taken := true } }
  | .replyTree i node, _, t, _, t' => ∃ slot, t.trees[i]? = some slot ∧
      t' = { t with trees := t.trees.set i { slot with reply := .sent node } }
  | .closeTree i, _, t, _, t' => ∃ slot, t.trees[i]? = some slot ∧
      t' = { t with
        failed := true
        trees := t.trees.set i { slot with reply := .closed } }
  | .fails, _, t, _, t' => t' = t
  | .handler _, _, t, _, t' => t' = t
  -- no two trees have the same ID
  | .marshal tree, _, t, result, t' => t' = t ∧ ∀ buf, result = some buf →
      buf = cfg.marshal tree ∧ cfg.treeOf (cfg.repo.hash buf) = some tree
  | .has bh, s, t, found, t' => t' = t ∧ found = s.idx.has bh
  | .loadTree _, _, t, _, t' => t' = t
  | .loadParentTree, _, t, _, t' => t' = t
  | .lookAt _, _, t, _, t' => t' = t
  | .statDir _, _, t, _, t' => t' = t
  | .chunks, _, t, _, t' => t' = t
  -- a map is iterated in any order
  | .iterate futures, _, t, order, t' => t' = t ∧ order.Perm futures
  | .kill, _, t, _, t' => t' = { t with cancelled := Function.update t.cancelled .main true }

/-- A context is cancelled: from outside, because the tomb is killed, or because
its parent is cancelled. -/
def Cancels (t t' : State) : Prop :=
  ∃ ctx, (ctx = .workers → t.cancelled .main ∨ t.failed) ∧
    t' = { t with cancelled := Function.update t.cancelled ctx true }

def system (cfg : Config) : System (RepoState × State) (Repository.Op ⊕ Op)
    (Sum.elim Repository.Op.Res Op.Res) := Repository.system.extend (exec cfg) Cancels

/-! ## The programs -/

abbrev ArchM := Prog (Repository.Op ⊕ Op) (Sum.elim Repository.Op.Res Op.Res)

def perform (op : Op) : ArchM op.Res := .onTop op

/-- The loop of a worker: a result when the worker ends. -/
abbrev Loop := ArchM (Option (Except Error (Option ID)))

def blobWorker (cfg : Config) : Loop := do
  match ← perform .receiveBlob with
  | none => return some (.ok none)
  | some (i, t, buf) =>
    match ← (cfg.repo.saveBlob t buf .null false).lift with
    | (_, _, some err) =>
      perform (.closeBlob i)
      return some (.error (.saveBlob err))
    | (id, known, none) =>
      perform (.replyBlob i id known)
      return none

def saveChunks : List Bytes → List Nat → ArchM (Except Error (List Nat))
  | [], results => return .ok results
  | chunk :: rest, results => do
      match ← perform (.ctxErr .workers) with
      | some err => return .error err
      | none =>
        let i ← perform (.sendBlob .workers .data chunk)
        match ← perform (.ctxErr .workers) with
        | some err => return .error err
        | none => saveChunks rest (results ++ [i])

/-- The zero ID stands for a blob that was not saved. -/
def waitBlobs : List Nat → ArchM (List ID)
  | [] => return []
  | i :: rest => do
      let res ← perform (.waitBlob .workers i)
      let content ← waitBlobs rest
      return (res.map Prod.fst).getD .null :: content

def saveFile (fi : FileInfo) : ArchM SaveFileResponse := do
  if ← perform .fails then return ⟨none, some .nodeFromFileInfo⟩
  else
    let node := nodeFromFileInfo fi
    if node.type ≠ .file then return ⟨none, some .wrongType⟩
    else
      let (chunks, broken) ← perform .chunks
      match ← saveChunks chunks [] with
      | .error err => return ⟨none, some err⟩
      | .ok results =>
        if broken then return ⟨none, some .chunker⟩
        else if ← perform .fails then return ⟨none, some .close⟩
        else
          let content ← waitBlobs results
          return ⟨some { node with
            content := content
            size := (chunks.map List.length).sum
            nilContent := false
            content_of_nil := nofun }, none⟩

def fileWorker : Loop := do
  match ← perform .receiveFile with
  | none => return some (.ok none)
  | some (i, fi) =>
    let response ← saveFile fi
    perform (.replyFile i response)
    return none

/-- Models the archiver's own `saveTree`, which stores one tree. -/
def saveTree (ctx : Ctx) (tree : Restic.Tree) : ArchM (Except Error ID) := do
  match ← perform (.marshal tree) with
  | none => return .error .marshal
  | some buf =>
    let i ← perform (.sendBlob ctx .tree buf)
    let res ← perform (.waitBlob ctx i)
    match ← perform (.ctxErr ctx) with
    | some err => return .error err
    | none => return .ok ((res.map Prod.fst).getD .null)

def FutureNode.wait (ctx : Ctx) : FutureNode → ArchM (Option TreeNode × Option Error)
  | .node known => return (some known, none)
  | .file i => do
      match ← perform (.waitFile ctx i) with
      | none => return (none, none)
      | some response => return (response.node, response.err)
  | .tree i => do
      let saved ← perform (.waitTree ctx i)
      return (saved, none)

/-- The nodes that the tree saver waits for. -/
def insertNodes : List FutureNode → Restic.Tree → ArchM (Except Error Restic.Tree)
  | [], tree => return .ok tree
  | fn :: rest, tree => do
      match ← fn.wait .workers with
      | (_, some err) =>
        match ← perform (.handler err) with
        | none => insertNodes rest tree
        | some err => return .error err
      | (none, none) => insertNodes rest tree
      | (some node, none) =>
        match tree.insert node with
        | none => return .error (.nodePresent node.name)
        | some tree => insertNodes rest tree

/-- Models `save` of the tree saver. -/
def saveNodes (nodes : List FutureNode) : ArchM (Except Error ID) := do
  match ← insertNodes nodes ⟨[]⟩ with
  | .error err => return .error err
  | .ok tree => saveTree .workers tree

def treeWorker : Loop := do
  match ← perform .receiveTree with
  | none => return some (.ok none)
  | some (i, node, nodes) =>
    match ← saveNodes nodes with
    | .error err =>
      perform (.closeTree i)
      return some (.error err)
    | .ok id =>
      perform (.replyTree i { node with subtree := some id })
      return none

end Rapi.Archiver
