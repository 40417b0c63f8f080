import Rapi.Foundation.FreeName
import Rapi.Foundation.Store
import Rapi.Foundation.Transition
import Rapi.Restic.Blob

/-!
# Directories of snapshots in a mounted repository

A mounted repository has directories that name the snapshots by ID or by time,
and directories of all tags and hosts.  The root keeps the snapshots that were
found last and their number.  When a directory is read, the root looks for
snapshots and takes them over if their number has changed, and the directory is
built anew if its own number is not that of the root.
-/

namespace Rapi.Fuse

open Foundation Restic

/-- The time is an instant, which is displayed in a zone. -/
structure Snapshot where
  id : ID
  time : Int
  hostname : Bytes
  tags : List Bytes
  zone : Int := 0
  deriving DecidableEq

def shortStr : Nat := 4

/-- `ID.Str`. -/
def str (id : ID) : Bytes :=
  if id = .null then ascii "[null]" else hexOf (id.bytes.take shortStr)

/-! ## The root -/

structure Root where
  snapshots : List Snapshot := []
  snCount : Nat := 0
  lastCheck : Int := 0

/-- In seconds. -/
def minSnapshotsReloadTime : Int := 60

/-- Update the snapshots if the repository has changed, given what is found and
the error of `LoadIndex`. -/
def updateSnapshots {ε : Type} (now : Int) (found : Except ε (List Snapshot))
    (loadIndex : Option ε) (root : Root) : Option ε × Root :=
  if now - root.lastCheck < minSnapshotsReloadTime then (none, root)
  else
    match found with
    | .error err => (some err, root)
    | .ok snapshots =>
      if root.snCount ≠ snapshots.length then
        let root := { root with snCount := snapshots.length }
        match loadIndex with
        | some err => (some err, root)
        | none => (none, { root with snapshots := snapshots, lastCheck := now })
      else (none, { root with lastCheck := now })

/-! ## The directories -/

/-- A directory with the number of snapshots that it was built from. -/
structure Cached (γ : Type) where
  snCount : Nat := 0
  content : γ

/-- Build the content again if the number has changed. -/
def Cached.update {γ : Type} (build : List Snapshot → γ → γ) (root : Root)
    (d : Cached γ) : Cached γ :=
  if d.snCount ≠ root.snCount then ⟨root.snCount, build root.snapshots d.content⟩
  else d

def tagNames (snapshots : List Snapshot) : Finset Bytes :=
  (snapshots.flatMap fun sn => sn.tags.filter (· ≠ [])).toFinset

def updateTagNames : Root → Cached (Finset Bytes) → Cached (Finset Bytes) :=
  Cached.update fun snapshots _ => tagNames snapshots

def hostNames (snapshots : List Snapshot) : Finset Bytes :=
  (snapshots.map Snapshot.hostname).toFinset

def updateHostsNames : Root → Cached (Finset Bytes) → Cached (Finset Bytes) :=
  Cached.update fun snapshots _ => hostNames snapshots

/-- The names are added to those that are there. -/
def addIDs (snapshots : List Snapshot) (names : Store Bytes Snapshot) : Store Bytes Snapshot :=
  snapshots.foldl (fun names sn => names.save (str sn.id) sn) names

def updateSnapshotIDSNames : Root → Cached (Store Bytes Snapshot) → Cached (Store Bytes Snapshot) :=
  Cached.update addIDs

structure Names where
  names : Store Bytes Snapshot := []
  latest : Bytes := []
  latestTime : Int := 0

/-- The loop that looks for a name. -/
def Names.freeName (format : Int → Int → Bytes) (d : Names) (sn : Snapshot) : Bytes :=
  firstFree d.names.names (numbered (format sn.time sn.zone)) d.names.names.length 0

theorem Names.exists_freeName (format : Int → Int → Bytes) (d : Names) (sn : Snapshot) :
    ∃ i, d.freeName format sn = numbered (format sn.time sn.zone) i ∧
      (∀ j < i, numbered (format sn.time sn.zone) j ∈ d.names.names) ∧
      numbered (format sn.time sn.zone) i ∉ d.names.names :=
  exists_firstFree (numbered_injective _) (Nat.zero_add _) fun j hj => absurd hj (Nat.not_lt_zero j)

theorem Names.freeName_not_mem (format : Int → Int → Bytes) (d : Names)
    (sn : Snapshot) : d.freeName format sn ∉ d.names.names := by
  obtain ⟨i, hname, -, hfree⟩ := d.exists_freeName format sn
  rwa [hname]

def addName (format : Int → Int → Bytes) (d : Names) (sn : Snapshot) : Names :=
  let name := format sn.time sn.zone
  let newer := d.latest = [] ∨ ¬sn.time < d.latestTime
  { names := d.names.save (d.freeName format sn) sn
    latest := if newer then name else d.latest
    latestTime := if newer then sn.time else d.latestTime }

def belongs (tag host : Bytes) (sn : Snapshot) : Bool :=
  (tag = [] ∨ tag ∈ sn.tags) ∧ (host = [] ∨ host = sn.hostname)

def snapshotNames (format : Int → Int → Bytes) (tag host : Bytes)
    (snapshots : List Snapshot) : Names :=
  (snapshots.filter (belongs tag host)).foldl (addName format) {}

def updateSnapshotNames (format : Int → Int → Bytes) (tag host : Bytes) :
    Root → Cached Names → Cached Names :=
  Cached.update fun snapshots _ => snapshotNames format tag host snapshots

inductive Dir
  | tags (d : Cached (Finset Bytes))
  | hosts (d : Cached (Finset Bytes))
  | ids (d : Cached (Store Bytes Snapshot))
  | snapshots (tag host : Bytes) (d : Cached Names)

def newTagsDir : Dir := .tags { content := ∅ }

def newHostsDir : Dir := .hosts { content := ∅ }

def newSnapshotsIDSDir : Dir := .ids { content := [] }

def newSnapshotsDir (tag host : Bytes) : Dir := .snapshots tag host { content := {} }

def Dir.update (format : Int → Int → Bytes) (root : Root) : Dir → Dir
  | .tags d => .tags (updateTagNames root d)
  | .hosts d => .hosts (updateHostsNames root d)
  | .ids d => .ids (updateSnapshotIDSNames root d)
  | .snapshots tag host d => .snapshots tag host (updateSnapshotNames format tag host root d)

/-! ## The mounted repository -/

/-- The settings: the filter of `FindFilteredSnapshots` and the template. -/
structure Config where
  wanted : Snapshot → Bool
  format : Int → Int → Bytes

/-- `listings` is the history of what the reads found, the last one first. -/
structure State where
  repo : List Snapshot
  root : Root
  dirs : List Dir
  listings : List (List Snapshot)

def start (repo : List Snapshot) : State where
  repo := repo
  root := {}
  dirs := [newSnapshotsDir [] [], newTagsDir, newHostsDir, newSnapshotsIDSDir]
  listings := []

/-- Opening a tag or a host makes a new directory.  A read finds the snapshots in
any order. -/
inductive Event
  | add (sn : Snapshot)
  | remove (id : ID)
  | open (tag host : Bytes)
  | read (i : Nat) (now : Int) (found : List Snapshot)

def step (c : Config) (s : State) : Event → Option State
  | .add sn =>
    if sn.id ∈ s.repo.map Snapshot.id then none
    else some { s with repo := sn :: s.repo }
  | .remove id => some { s with repo := s.repo.filter (·.id ≠ id) }
  | .open tag host => some { s with dirs := s.dirs ++ [newSnapshotsDir tag host] }
  | .read i now found =>
    match s.dirs[i]? with
    | none => none
    | some dir =>
      if found.Perm (s.repo.filter c.wanted) ∧
          minSnapshotsReloadTime ≤ now - s.root.lastCheck then
        let root := (updateSnapshots (ε := Empty) now (.ok found) none s.root).2
        some
          { s with
            root := root
            dirs := s.dirs.set i (dir.update c.format root)
            listings := found :: s.listings }
      else none

section Samples

theorem length_sampleID (n : Nat) : (UInt8.ofNat n :: List.replicate 31 0).length = idSize := by
  simp [idSize]

def sampleSnapshot (n : Nat) : Snapshot where
  id := ⟨UInt8.ofNat n :: List.replicate 31 0, length_sampleID n⟩
  time := n
  hostname := ascii "host"
  tags := []

end Samples

end Rapi.Fuse
