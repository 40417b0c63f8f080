import Rapi.Bloblru.Cache
import Rapi.Foundation.Pipe
import Rapi.Walker.Walk

/-!
# Dumping a tree into an archive

One goroutine walks over the trees and sends their nodes into a channel, another
one writes an entry of the archive for each node that it receives.  When the walk
fails, the channel is closed; nothing else is reported.

The writers of the archive formats are known by their documentation: each call
may fail, and then nothing is known about the archive.
-/

namespace Rapi.Dump

open Foundation Foundation.FilePath Restic Walker Bloblru Foundation.Pipe

structure Item where
  path : Bytes
  node : TreeNode
  deriving DecidableEq

inductive Format
  | tar
  | zip
  deriving DecidableEq

/-! ## Archives -/

inductive Typeflag
  | unset
  | reg
  | symlink
  | dir
  deriving DecidableEq

/-- The mode, the owner, the times and the extended attributes are left out. -/
structure Header where
  name : Bytes
  size : Int
  typeflag : Typeflag
  linkname : Bytes
  deriving DecidableEq

/-- A tar entry of this kind has no data, whatever its size. -/
def Header.headerOnly (h : Header) : Bool := h.typeflag = .symlink ∨ h.typeflag = .dir

structure Entry where
  header : Header
  data : Bytes
  deriving DecidableEq

/-- The entries, the last one first.  Of the last one `left` bytes are missing. -/
structure Archive where
  entries : List Entry
  left : Nat
  closed : Bool
  deriving DecidableEq

namespace Archive

def empty : Archive := ⟨[], 0, false⟩

def addHeader (format : Format) (h : Header) (a : Archive) : Option Archive :=
  let entries := ⟨h, []⟩ :: a.entries
  match format with
  | .tar =>
    if a.left ≠ 0 ∨ (h.headerOnly = false ∧ h.size < 0) then none
    else some { a with
      entries := entries
      left := if h.headerOnly then 0 else h.size.toNat }
  | .zip => some { a with entries := entries }

def append (data : Bytes) (a : Archive) : Archive :=
  match a.entries with
  | [] => a
  | e :: rest => { a with entries := { e with data := e.data ++ data } :: rest }

def inDirectory (a : Archive) : Bool :=
  a.entries.head?.any fun e => e.header.name.getLast? = some separator

def write (format : Format) (data : Bytes) (a : Archive) : Option Archive :=
  match format with
  | .tar =>
    if a.left < data.length then none
    else some { a.append data with left := a.left - data.length }
  | .zip => if data ≠ [] ∧ a.inDirectory then none else some (a.append data)

def finish (format : Format) (a : Archive) : Option Archive :=
  match format with
  | .tar => if a.left ≠ 0 then none else some { a with closed := true }
  | .zip => some { a with closed := true }

end Archive

/-! ## The actions -/

/-- Loading a tree, and the end of the process by a panic. -/
inductive SenderOp
  | loadTree (id : ID)
  | crash

inductive WriterOp
  | cacheGet (id : ID)
  | loadBlob (id : ID) (buf : Slice)
  | cacheAdd (id : ID) (blob : Slice)
  | writeHeader (h : Header)
  | writeBlob (blob : Slice)
  | writeBytes (data : Bytes)
  | close

section Actions

variable (ε : Type)

def SenderOp.Res : SenderOp → Type
  | .loadTree _ => Option ε
  | .crash => Empty

def WriterOp.Res : WriterOp → Type
  | .cacheGet _ => Option Slice
  | .loadBlob _ _ => Except ε Slice
  | .cacheAdd _ _ => Slice
  | .writeHeader _ => Option ε
  | .writeBlob _ => Option ε
  | .writeBytes _ => Option ε
  | .close => Option ε

abbrev DumpM := PipeM Item (SenderOp.Res ε) (WriterOp.Res ε)

end Actions

structure Writer where
  memory : Memory
  cache : Cache
  archive : Archive

/-- `LoadBlob` puts the blob into the array of the buffer or into a new one, and
changes no other array. -/
structure Loaded (data : Bytes) (buf : Slice) (m : Memory) (blob : Slice) (m' : Memory) : Prop where
  grows : m.arrays.length ≤ m'.arrays.length
  others : ∀ a < m.arrays.length, some a ≠ buf.array → m'.array (some a) = m.array (some a)
  sameCap : buf.cap m' = buf.cap m
  place : ∃ a < m'.arrays.length, blob.array = some a ∧
    (buf.array = some a ∨ m.arrays.length ≤ a)
  content : blob.content m' = data

section Semantics

variable {ε : Type}

/-- The archive after a call that may fail. -/
def Written (success : Option Archive) (res : Option ε) (w w' : Writer) : Prop :=
  ∃ archive, w' = { w with archive := archive } ∧ (res = none → success = some archive)

/-- Adding to the cache has no outcome if it panics. -/
def writerExec (format : Format) (blobs : ID → Bytes) :
    (op : WriterOp) → Writer → op.Res ε → Writer → Prop
  | .cacheGet id, w, res, w' =>
    res = (w.cache.get id).1 ∧ w' = { w with cache := (w.cache.get id).2 }
  | .loadBlob id buf, w, res, w' =>
    ∃ m, w' = { w with memory := m } ∧
      ∀ blob, res = .ok blob → Loaded (blobs id) buf w.memory blob m
  | .cacheAdd id blob, w, old, w' =>
    ∃ cache, w.cache.add w.memory id blob = some (old, cache) ∧
      w' = { w with cache := cache }
  | .writeHeader h, w, res, w' => Written (w.archive.addHeader format h) res w w'
  | .writeBlob blob, w, res, w' => Written (w.archive.write format (blob.content w.memory)) res w w'
  | .writeBytes data, w, res, w' => Written (w.archive.write format data) res w w'
  | .close, w, res, w' => Written (w.archive.finish format) res w w'

/-- The trees that may fail to load, and when the caller may cancel. -/
structure Environment where
  failing : ID → Prop
  mayCancel : State Writer Item → Prop

def setting (ε : Type) (format : Format) (blobs : ID → Bytes) (e : Environment) :
    Setting Writer Item (SenderOp.Res ε) (WriterOp.Res ε) where
  capacity := 10
  answers
    | .loadTree id, failure => failure = none ∨ e.failing id
    | .crash, _ => True
  consumer := writerExec format blobs
  mayCancel := e.mayCancel

/-! ## The sender -/

inductive SendError (ε : Type)
  | load (err : ε)
  | cancelled

inductive SendFailure (ε : Type)
  | cancelled
  | walk (err : WalkError (SendError ε))
  /-- The subtree of a directory is nil. -/
  | panics

def isFile (node : TreeNode) : Bool := node.type = .file

def isDir (node : TreeNode) : Bool := node.type = .dir

def isLink (node : TreeNode) : Bool := node.type = .symlink

def loadTree (id : ID) : DumpM ε (Option (SendError ε)) := do
  return (← produce (SenderOp.loadTree id)).map .load

/-- The function that the walk below `rootPath` calls. -/
def sendNode (rootPath : Bytes) : WalkFunc (DumpM ε) (SendError ε)
  | _, _, _, some err => return (false, some (.failed err))
  | _, _, none, none => return (false, none)
  | _, nodepath, some node, none =>
    if !isFile node && !isDir node && !isLink node then return (false, none)
    else do
      if ← send ⟨join rootPath nodepath, node⟩ then return (false, none)
      else return (false, some (.failed .cancelled))

def sendNodes (path : Bytes) (root : TreeNode) (children : Nodes) :
    DumpM ε (Option (SendFailure ε)) := do
  if ← send ⟨path, root⟩ then
    if isDir root then
      match root.subtree with
      | none => return some .panics
      | some subtree => return (← walk loadTree (sendNode path) subtree children ∅).map .walk
    else return none
  else return some .cancelled

/-- The loop over the nodes of the tree, up to the first failure. -/
def sendRoots (rootPath : Bytes) : Nodes → DumpM ε (Option (SendFailure ε))
  | .nil => return none
  | .cons root children rest => do
      match ← sendNodes (join rootPath root.name) root children with
      | some failure => return some failure
      | none => sendRoots rootPath rest

/-! ## The writer -/

inductive DumpError (ε : Type)
  | notRelative (path : Bytes)
  | loadBlob (err : ε)
  | tarHeader (err : ε)
  | zipHeader (err : ε)
  | write (err : ε)
  | close (err : ε)

/-- The channel is closed in any case, also when the loop panics. -/
def sendTrees (rootPath : Bytes) (tree : Nodes) : DumpM ε (Option (DumpError ε)) := do
  let failure ← sendRoots rootPath tree
  close
  match failure with
  | some .panics => nomatch ← produce SenderOp.crash
  | _ => return none

def writeNode : List ID → Slice → DumpM ε (Option (DumpError ε))
  | [], _ => return none
  | id :: rest, buf => do
      match ← consume (WriterOp.cacheGet id) with
      | some blob =>
        match ← consume (WriterOp.writeBlob blob) with
        | some err => return some (.write err)
        | none => writeNode rest buf
      | none =>
        match ← consume (WriterOp.loadBlob id buf) with
        | .error err => return some (.loadBlob err)
        | .ok blob =>
          let buf ← consume (WriterOp.cacheAdd id blob)
          match ← consume (WriterOp.writeBlob blob) with
          | some err => return some (.write err)
          | none => writeNode rest buf

/-- `filepath.Rel` with the base "/". -/
def relToRoot (path : Bytes) : Option Bytes :=
  let cleaned := clean path
  if cleaned = [separator] then some dot
  else if isAbs cleaned then some (cleaned.drop 1)
  else none

def entryName (node : TreeNode) (relPath : Bytes) : Bytes :=
  if isDir node then relPath ++ [separator] else relPath

def tarHeader (linkTarget : TreeNode → Bytes) (node : TreeNode) (relPath : Bytes) : Header where
  name := entryName node relPath
  size := int64 node.size
  typeflag :=
    if isDir node then .dir
    else if isLink node then .symlink
    else if isFile node then .reg
    else .unset
  linkname := if isLink node then linkTarget node else []

def dumpNodeTar (linkTarget : TreeNode → Bytes) (item : Item) : DumpM ε (Option (DumpError ε)) :=
  match relToRoot item.path with
  | none => return some (.notRelative item.path)
  | some relPath => do
      let header := tarHeader linkTarget item.node relPath
      match ← consume (WriterOp.writeHeader header) with
      | some err => return some (.tarHeader err)
      | none => writeNode item.node.content noBuffer

def zipHeader (node : TreeNode) (relPath : Bytes) : Header where
  name := entryName node relPath
  size := node.size
  typeflag := .unset
  linkname := []

def dumpNodeZip (linkTarget : TreeNode → Bytes) (item : Item) : DumpM ε (Option (DumpError ε)) :=
  match relToRoot item.path with
  | none => return some (.notRelative item.path)
  | some relPath => do
      match ← consume (WriterOp.writeHeader (zipHeader item.node relPath)) with
      | some err => return some (.zipHeader err)
      | none =>
        if isLink item.node then
          return (← consume (WriterOp.writeBytes (linkTarget item.node))).map .write
        else writeNode item.node.content noBuffer

/-- `dumpTar` and `dumpZip`: one round of the loop over the channel, and what is
done when it is closed. -/
def dumpRound (dumpNode : Item → DumpM ε (Option (DumpError ε))) :
    DumpM ε (Option (Option (DumpError ε))) := do
  match ← receive with
  | some item => return (← dumpNode item).map some
  | none => return some ((← consume WriterOp.close).map .close)

def dumpTar (linkTarget : TreeNode → Bytes) : DumpM ε (Option (Option (DumpError ε))) :=
  dumpRound (dumpNodeTar linkTarget)

def dumpZip (linkTarget : TreeNode → Bytes) : DumpM ε (Option (Option (DumpError ε))) :=
  dumpRound (dumpNodeZip linkTarget)

def dumpFormat (linkTarget : TreeNode → Bytes) : Format → DumpM ε (Option (Option (DumpError ε)))
  | .tar => dumpTar linkTarget
  | .zip => dumpZip linkTarget

/-- The cache holds blobs of the repository. -/
structure Dumper (blobs : ID → Bytes) where
  memory : Memory
  cache : Cache
  holds : Holds blobs memory cache.entries

def cacheSize : Int := 2 ^ 26

def Dumper.new (blobs : ID → Bytes) : Dumper blobs := ⟨⟨[]⟩, Bloblru.new cacheSize, Holds.nil⟩

/-- `DumpTree` at its start; it returns what the consumer returns, and cancels the
context of the sender only after that. -/
def dumpTree {blobs : ID → Bytes} (d : Dumper blobs) (linkTarget : TreeNode → Bytes)
    (format : Format) (rootPath : Bytes) (tree : Nodes) :
    Pool (State Writer Item) (Op SenderOp WriterOp Item)
      (Op.Res (SenderOp.Res ε) (WriterOp.Res ε)) (Option (DumpError ε)) Party :=
  Pipe.start (sendTrees rootPath tree) (dumpFormat linkTarget format)
    ⟨d.memory, d.cache, Archive.empty⟩

end Semantics

end Rapi.Dump
