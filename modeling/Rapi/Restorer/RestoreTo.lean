import Rapi.Foundation.FileSystem
import Rapi.Restorer.Traverse

/-!
# Restoring a snapshot

`RestoreTo` traverses the tree twice.  The first pass makes the directories and
collects the files with content, but of the files that share an inode only the
first one.  Then the collected files are written.  The second pass makes the
empty files, the hard links and the special files.

The collected files are written by concurrent workers.  A schedule is the order
in which their operations reach the file system: each file with blobs is opened
once, with truncation, before the writes of its blobs.  Setting metadata of an existing
path has no effect on the content of files.
-/

namespace Rapi.Restorer

open Foundation Foundation.FilePath Restic

/-! ## The hard link index -/

structure HardlinkKey where
  inode : Nat
  device : Nat
  deriving DecidableEq

abbrev HardlinkIndex := Store HardlinkKey Bytes

namespace HardlinkIndex

def has (idx : HardlinkIndex) (key : HardlinkKey) : Bool := (Store.load idx key).isSome

def add (idx : HardlinkIndex) (key : HardlinkKey) (name : Bytes) : HardlinkIndex :=
  if idx.has key then idx else Store.save idx key name

def getFilename (idx : HardlinkIndex) (key : HardlinkKey) : Bytes := (Store.load idx key).getD []

end HardlinkIndex

def hardlinkKey (node : Node) : HardlinkKey := ⟨node.inode, node.deviceID⟩

/-! ## The first pass -/

structure FirstPass where
  fs : FileSystem
  idx : HardlinkIndex
  files : List FileInfo

def failWith {σ : Type} (text : String) (s : σ) : Option Failure × σ := (some (.other text), s)

def mkdirFirst (s : FirstPass) (path : Bytes) : Option Failure × FirstPass :=
  match s.fs.mkdirAll path with
  | none => failWith "mkdir" s
  | some fs => (none, { s with fs := fs })

/-- Decide whether the content of a file is to be written. -/
def collectFile (node : Node) (location : Bytes) (s : FirstPass) : FirstPass :=
  let file : FileInfo := ⟨int64 node.size, location, .ids node.content⟩
  if node.type ≠ .file then s
  else if node.size = 0 then s
  else if 1 < node.links then
    if s.idx.has (hardlinkKey node) then s
    else
      { s with
        idx := s.idx.add (hardlinkKey node) location
        files := s.files ++ [file] }
  else { s with files := s.files ++ [file] }

def firstPass : Visitor FirstPass where
  enterDir := some fun _ target _ s => mkdirFirst s target
  visitNode node target location s :=
    match mkdirFirst s (dir target) with
    | (some failure, s) => (some failure, s)
    | (none, s) => (none, collectFile node location s)
  leaveDir := none

/-! ## Writing the files -/

/-- The blobs of a file with their offsets. -/
def chunks (plaintext : ID → Bytes) : Nat → List ID → List (Nat × Bytes)
  | _, [] => []
  | offset, id :: ids =>
    (offset, plaintext id) :: chunks plaintext (offset + (plaintext id).length) ids

def FileInfo.chunks (plaintext : ID → Bytes) (file : FileInfo) : List (Nat × Bytes) :=
  match file.blobs with
  | .ids content => Restorer.chunks plaintext 0 content
  | .packs _ => []

inductive FileEvent
  | create (file : FileInfo) (allocated : Bool)
  | write (file : FileInfo) (offset : Nat) (data : Bytes)

def runFileEvent (dst : Bytes) (fs : FileSystem) : FileEvent → Option FileSystem
  | .create file allocated =>
    let path := join dst file.location
    -- a negative size means that the file is not created and not truncated
    if file.size < 0 then (fs.lookup path).map fun _ => fs
    else
      match fs.create path with
      | none => none
      | some fs => if allocated then fs.allocate path file.size.toNat else some fs
  | .write file offset data => fs.writeAt (join dst file.location) offset data

def runFileEvents (dst : Bytes) : List FileEvent → FileSystem → Option FileSystem
  | [], fs => some fs
  | event :: events, fs =>
    match runFileEvent dst fs event with
    | none => none
    | some fs => runFileEvents dst events fs

def FileEvent.file : FileEvent → FileInfo
  | .create file _ => file
  | .write file _ _ => file

/-- The schedule opens each file that has blobs once and then writes them all. -/
structure Schedule (plaintext : ID → Bytes) (files : List FileInfo)
    (events : List FileEvent) : Prop where
  created : ∀ file ∈ files, file.chunks plaintext ≠ [] →
    ∃ allocated, .create file allocated ∈ events
  ordered : events.Pairwise fun before event =>
    ∀ file allocated, event = .create file allocated → before.file ≠ file
  complete : ∀ file ∈ files, ∀ chunk ∈ file.chunks plaintext, .write file chunk.1 chunk.2 ∈ events
  sound : ∀ event ∈ events, (∃ file ∈ files, file.chunks plaintext ≠ [] ∧
      ∃ allocated, event = .create file allocated) ∨
      ∃ file ∈ files, ∃ chunk ∈ file.chunks plaintext, event = .write file chunk.1 chunk.2

/-! ## The second pass -/

structure SecondPass where
  fs : FileSystem
  idx : HardlinkIndex

/-- Setting metadata fails when there is nothing at the path. -/
def restoreNodeMetadataTo (s : SecondPass) (path : Bytes) : Option Failure × SecondPass :=
  if s.fs.pathExists path then (none, s) else failWith "Lchown" s

/-- The result of `Remove` is returned unless it says that nothing exists. -/
def restoreHardlinkAt (s : SecondPass) (target path : Bytes) : Option Failure × SecondPass :=
  if s.fs.occupied path then (none, { s with fs := s.fs.remove path })
  else
    match s.fs.link target path with
    | none => failWith "CreateHardlink" s
    | some fs => restoreNodeMetadataTo { s with fs := fs } path

def restoreEmptyFileAt (s : SecondPass) (target : Bytes) : Option Failure × SecondPass :=
  match s.fs.create target with
  | none => failWith "open" s
  | some fs => restoreNodeMetadataTo { s with fs := fs } target

/-- `CreateAt` of special files fails when the path exists. -/
def restoreNodeTo (node : Node) (s : SecondPass) (target : Bytes) : Option Failure × SecondPass :=
  match node.type with
  | .symlink | .dev | .chardev | .fifo =>
    match s.fs.mknod target with
    | none => failWith "CreateAt" s
    | some fs => restoreNodeMetadataTo { s with fs := fs } target
  | _ => failWith "filetype not implemented" s

def restoreFileNode (dst : Bytes) (node : Node) (target location : Bytes)
    (s : SecondPass) : Option Failure × SecondPass :=
  let key := hardlinkKey node
  if node.size = 0 ∧ (node.links < 2 ∨ s.idx.has key = false) then
    let idx := if 1 < node.links then s.idx.add key location else s.idx
    restoreEmptyFileAt { s with idx := idx } target
  else if s.idx.has key ∧ s.idx.getFilename key ≠ location then
    restoreHardlinkAt s (join dst (s.idx.getFilename key)) target
  else restoreNodeMetadataTo s target

def secondPass (dst : Bytes) : Visitor SecondPass where
  enterDir := none
  visitNode node target location s :=
    if node.type ≠ .file then restoreNodeTo node s target
    else restoreFileNode dst node target location s
  leaveDir := some fun _ target _ s => restoreNodeMetadataTo s target

/-! ## The whole restore -/

/-- A run of `RestoreTo` with the absolute path `dst` that returns no error. -/
structure RestoreTo (plaintext : ID → Bytes) (dst : Bytes) (tree : Tree)
    (before after : FileSystem) where
  schedule : List FileEvent
  written : FileSystem
  first : Traversal FirstPass
  second : Traversal SecondPass
  first_eq : first = tree.traverse newRestorer firstPass dst [separator] ⟨before, [], []⟩
  first_ok : first.err = none
  scheduled : Schedule plaintext first.state.files schedule
  written_eq : runFileEvents dst schedule first.state.fs = some written
  second_eq : second = tree.traverse newRestorer (secondPass dst) dst
    [separator] ⟨written, first.state.idx⟩
  second_ok : second.err = none
  after_eq : after = second.state.fs

end Rapi.Restorer
