import Rapi.Foundation.SumOnce
import Rapi.Walker.Walk

/-!
# Statistics of a snapshot

`statsWalkSnapshot` walks over the tree of a snapshot and counts files and their
sizes.  The function that it passes to the walk asks for every node to be
ignored, so a tree that several directories share is visited once.  The blobs
are collected by `FindUsedBlobs`, which changes none of the fields here.
-/

namespace Rapi.Cmd

open Foundation Foundation.FilePath Restic Walker List Nat

/-- A hash of the blob IDs of the content in sequence. -/
def makeFileIDByContents (sum256 : Bytes → ID) (node : Node) : ID :=
  sum256 (node.content.flatMap (·.bytes))

structure StatsContainer where
  totalSize : Nat := 0
  restoreSize : Nat := 0
  totalFileCount : Nat := 0
  uniqueFileCount : Nat := 0
  uniqueFiles : Finset ID := ∅
  uniqueInodes : Finset Nat := ∅

def add64 (m n : Nat) : Nat := (m + n) % 2 ^ 64

namespace StatsContainer

def countUnique (sum256 : Bytes → ID) (stats : StatsContainer) (node : Node) : StatsContainer :=
  let fid := makeFileIDByContents sum256 node
  if fid ∈ stats.uniqueFiles then stats
  else
    { stats with
      uniqueFiles := insert fid stats.uniqueFiles
      totalSize := add64 stats.totalSize node.size
      uniqueFileCount := add64 stats.uniqueFileCount 1 }

def countFile (stats : StatsContainer) (node : Node) : StatsContainer :=
  if node.type = .file then
    { stats with totalFileCount := add64 stats.totalFileCount 1 }
  else stats

/-- If inodes are present, only count each inode once. -/
def countInode (stats : StatsContainer) (node : Node) : StatsContainer :=
  if node.inode ∉ stats.uniqueInodes ∨ node.inode = 0 then
    { stats with
      uniqueInodes := insert node.inode stats.uniqueInodes
      restoreSize := add64 stats.restoreSize node.size }
  else stats

def count (sum256 : Bytes → ID) (stats : StatsContainer) (node : TreeNode) : StatsContainer :=
  ((stats.countUnique sum256 node.toNode).countFile node.toNode).countInode node.toNode

end StatsContainer

section Model

variable {ε : Type} (sum256 : Bytes → ID)

def statsWalkTree : WalkFunc (StateM StatsContainer) ε
  | _, _, _, some nodeErr => return (true, some (.failed nodeErr))
  | _, _, none, none => return (true, none)
  | _, _, some node, none => do
      modify (·.count sum256 node)
      return (true, none)

inductive StatsError (ε : Type)
  | nilTree
  | walkingTree (tree : ID) (err : WalkError ε)

/-- `statsWalkSnapshot`, with the tree of the snapshot if it has one. -/
def statsWalkSnapshot (loadTree : ID → StateM StatsContainer (Option ε)) :
    Option (ID × Nodes) → StateM StatsContainer (Option (StatsError ε))
  | none => return some .nilTree
  | some (root, tree) => do
      match ← walk loadTree (statsWalkTree sum256) root tree ∅ with
      | some err => return some (.walkingTree root err)
      | none => return none

end Model

/-! ## What is counted -/

/-- Inode numbers tell files apart, unless they are zero. -/
def inodeKey (node : TreeNode) : Option Nat :=
  if node.inode = 0 then none else some node.inode

/-- The sum of the sizes in which the nodes with the same inode count once. -/
def restoreSize (nodes : List TreeNode) : Nat := sumOnce inodeKey (·.size) nodes ∅

section Counts

variable {sum256 : Bytes → ID}

theorem ignores_statsWalkTree {ε : Type} (tree : Nodes) :
    Ignores (statsWalkTree (ε := ε) sum256) (StatsContainer.count sum256) tree := by
  intro node _ parentTreeID p s
  rfl

section Frame

variable (stats : StatsContainer) (node : Node)

@[simp] theorem totalFileCount_countUnique :
    (stats.countUnique sum256 node).totalFileCount = stats.totalFileCount := by
  unfold StatsContainer.countUnique
  dsimp only
  split <;> rfl

@[simp] theorem restoreSize_countUnique :
    (stats.countUnique sum256 node).restoreSize = stats.restoreSize := by
  unfold StatsContainer.countUnique
  dsimp only
  split <;> rfl

@[simp] theorem uniqueInodes_countUnique :
    (stats.countUnique sum256 node).uniqueInodes = stats.uniqueInodes := by
  unfold StatsContainer.countUnique
  dsimp only
  split <;> rfl

@[simp] theorem restoreSize_countFile : (stats.countFile node).restoreSize = stats.restoreSize := by
  unfold StatsContainer.countFile
  split <;> rfl

@[simp] theorem uniqueInodes_countFile :
    (stats.countFile node).uniqueInodes = stats.uniqueInodes := by
  unfold StatsContainer.countFile
  split <;> rfl

@[simp] theorem totalFileCount_countInode :
    (stats.countInode node).totalFileCount = stats.totalFileCount := by
  unfold StatsContainer.countInode
  split <;> rfl

end Frame

theorem totalFileCount_count (sum256 : Bytes → ID) (stats : StatsContainer) (node : TreeNode) :
    (stats.count sum256 node).totalFileCount =
      if node.type = .file then add64 stats.totalFileCount 1
      else stats.totalFileCount := by
  rw [StatsContainer.count, totalFileCount_countInode, StatsContainer.countFile]
  split <;> simp

theorem restoreSize_count (sum256 : Bytes → ID) (stats : StatsContainer) (node : TreeNode) :
    (stats.count sum256 node).restoreSize = if node.inode ∉ stats.uniqueInodes ∨ node.inode = 0 then
        add64 stats.restoreSize node.size
      else stats.restoreSize := by
  rw [StatsContainer.count, StatsContainer.countInode, uniqueInodes_countFile,
    uniqueInodes_countUnique]
  split <;> simp

theorem uniqueInodes_count (sum256 : Bytes → ID) (stats : StatsContainer) (node : TreeNode) :
    (stats.count sum256 node).uniqueInodes = insert node.inode stats.uniqueInodes := by
  rw [StatsContainer.count, StatsContainer.countInode, uniqueInodes_countFile,
    uniqueInodes_countUnique]
  split
  · rfl
  · rename_i hseen
    simp only [not_or, not_not] at hseen
    simp [hseen.1]

theorem add64_lt (m n : Nat) : add64 m n < 2 ^ 64 := mod_lt _ (by decide)

theorem add64_add_mod (m n k : Nat) : (add64 m n + k) % 2 ^ 64 = (m + (n + k)) % 2 ^ 64 := by
  rw [add64, mod_add_mod, add_assoc]

theorem totalFileCount_foldl (nodes : List TreeNode) {stats : StatsContainer}
    (hstats : stats.totalFileCount < 2 ^ 64) :
    (nodes.foldl (StatsContainer.count sum256) stats).totalFileCount =
      (stats.totalFileCount + nodes.countP (·.type = .file)) % 2 ^ 64 := by
  induction nodes generalizing stats with
  | nil => exact (mod_eq_of_lt hstats).symm
  | cons node rest ih =>
    have hcount := totalFileCount_count sum256 stats node
    rw [foldl_cons]
    by_cases hfile : node.type = .file
    · rw [if_pos hfile] at hcount
      rw [ih (by rw [hcount]; exact add64_lt _ _), hcount, add64_add_mod,
        countP_cons_of_pos (by simpa using hfile), add_comm 1]
    · rw [if_neg hfile] at hcount
      rw [ih (by rw [hcount]; exact hstats), hcount, countP_cons_of_neg (by simpa using hfile)]

theorem restoreSize_foldl (nodes : List TreeNode) {stats : StatsContainer}
    (hstats : stats.restoreSize < 2 ^ 64) :
    (nodes.foldl (StatsContainer.count sum256) stats).restoreSize =
      (stats.restoreSize + sumOnce inodeKey (·.size) nodes
        (stats.uniqueInodes.erase 0)) % 2 ^ 64 := by
  induction nodes generalizing stats with
  | nil => exact (mod_eq_of_lt hstats).symm
  | cons node rest ih =>
    have hsize := restoreSize_count sum256 stats node
    have hinodes := uniqueInodes_count sum256 stats node
    rw [foldl_cons, sumOnce]
    by_cases hzero : node.inode = 0
    · rw [if_pos (.inr hzero)] at hsize
      rw [ih (by rw [hsize]; exact add64_lt _ _), hsize, hinodes, add64_add_mod,
        hzero, Finset.erase_insert_eq_erase]
      simp [inodeKey, hzero]
    · have hkey : inodeKey node = some node.inode := if_neg hzero
      rw [hkey]
      by_cases hseen : node.inode ∈ stats.uniqueInodes
      · rw [if_neg (by simp [hseen, hzero])] at hsize
        rw [ih (by rw [hsize]; exact hstats), hsize, hinodes, Finset.insert_eq_of_mem hseen]
        simp [hseen, hzero]
      · rw [if_pos (.inl hseen)] at hsize
        rw [ih (by rw [hsize]; exact add64_lt _ _), hsize, hinodes, add64_add_mod,
          Finset.erase_insert_of_ne hzero]
        simp [hseen]

theorem statsWalkSnapshot_eq {ε : Type} (root : ID) {tree : Nodes}
    (hone : tree.OneTree) (hsound : tree.Sound) (stats : StatsContainer) :
    statsWalkSnapshot (ε := ε) sum256 loadAll (some (root, tree)) stats =
      (none, (tree.fresh ∅).foldl (StatsContainer.count sum256) stats) := by
  have hwalk : walk (loadAll (ε := ε)) (statsWalkTree sum256) root tree ∅ stats =
      (none, (tree.fresh ∅).foldl (StatsContainer.count sum256) stats) :=
    walk_ignoring (ignores_statsWalkTree tree) rfl hone hsound
  rw [statsWalkSnapshot, bind_eq_of_eq hwalk]
  rfl

theorem mod_eq_add_iff {m missing : Nat} :
    m % 2 ^ 64 = m + missing ↔ missing = 0 ∧ m + missing < 2 ^ 64 := by
  omega

theorem inodeKey_eq_some {node : TreeNode} {k : Nat} :
    inodeKey node = some k ↔ node.inode = k ∧ k ≠ 0 := by
  unfold inodeKey
  split
  · rename_i hzero
    simp only [reduceCtorEq, false_iff, not_and, not_not]
    rintro rfl
    exact hzero
  · rename_i hne
    simp only [Option.some.injEq]
    constructor
    · rintro rfl
      exact ⟨rfl, hne⟩
    · exact fun h => h.1

/-- The statistics are those of the unfolded tree as long as no directory with a
tree that occurred before contains a file or a size that is not counted yet.  A
sum of sizes is only determined if nodes with the same inode have the same
size; in any case it is right if no tree is shared. -/
theorem stats_count_every_path_iff {ε : Type} (sum256 : Bytes → ID) (root : ID)
    (tree : Nodes) (hone : tree.OneTree) (hsound : tree.Sound) :
    ∃ stats, statsWalkSnapshot (ε := ε) sum256 loadAll (some (root, tree)) {} = (none, stats) ∧
      (stats.totalFileCount = (tree.paths [separator]).countP (·.2.type = .file) ↔
        (∀ node ∈ tree.again ∅, node.type ≠ .file) ∧
          (tree.paths [separator]).countP (·.2.type = .file) < 2 ^ 64) ∧
      (tree.again ∅ = [] → restoreSize tree.list < 2 ^ 64 →
        stats.restoreSize = restoreSize tree.list) ∧
      (SameWeights inodeKey (·.size) tree.list → (stats.restoreSize = restoreSize tree.list ↔
          (∀ node ∈ tree.again ∅, node.size = 0 ∨
            node.inode ≠ 0 ∧ ∃ other ∈ tree.fresh ∅, other.inode = node.inode) ∧
          restoreSize tree.list < 2 ^ 64)) := by
  refine ⟨_, statsWalkSnapshot_eq root hone hsound {}, ?_, ?_, ?_⟩
  · have hfiles : (tree.paths [separator]).countP (·.2.type = .file) =
        (tree.fresh ∅).countP (·.type = .file) + (tree.again ∅).countP (·.type = .file) := by
      have hsnd : (tree.paths [separator]).countP (·.2.type = .file) =
          tree.list.countP (·.type = .file) := by
        rw [← tree.map_snd_paths [separator], countP_map]
        rfl
      rw [hsnd, (tree.list_perm ∅).countP_eq, countP_append]
    rw [totalFileCount_foldl _ (by decide), hfiles, zero_add, mod_eq_add_iff, countP_eq_zero]
    simp
  · intro hagain hlt
    rw [restoreSize_foldl _ (by decide), Nodes.fresh_eq_list hagain, zero_add, Finset.erase_empty]
    exact mod_eq_of_lt hlt
  · intro hsame
    rw [restoreSize_foldl _ (by decide)]
    obtain ⟨missing, hsum, hmissing⟩ := sumOnce_split (tree.list_perm ∅) hsame
    rw [restoreSize, hsum, zero_add, Finset.erase_empty, mod_eq_add_iff, hmissing]
    refine and_congr_left fun _ => forall₂_congr fun node _ => or_congr_right ?_
    constructor
    · rintro ⟨k, hk, other, hother, hother'⟩
      obtain ⟨rfl, hne⟩ := inodeKey_eq_some.mp hk
      exact ⟨hne, other, hother, (inodeKey_eq_some.mp hother').1⟩
    · rintro ⟨hne, other, hother, hsame⟩
      exact ⟨node.inode, inodeKey_eq_some.mpr ⟨rfl, hne⟩, other, hother,
        inodeKey_eq_some.mpr ⟨hsame, hne⟩⟩

end Counts

/-! ## Shared trees -/

def sharedTree : Nodes :=
  .cons (sampleDir (ascii "a") (.ofNat 1)) (.cons (sampleFile (ascii "f") 5 []) .nil .nil)
    (.cons (sampleDir (ascii "b") (.ofNat 1)) (.cons (sampleFile (ascii "f") 5 []) .nil .nil) .nil)

theorem sharedTree_loads : sharedTree.OneTree ∧ sharedTree.Sound := by
  constructor
  · intro id tree tree' h h'
    simp [sharedTree, Nodes.refs, treeOf, sampleDir, sampleFile] at h h'
    rw [h.2, h'.2]
  · simp [sharedTree, Nodes.Sound, sampleDir, sampleFile]

/-- Two files of five bytes are counted as one. -/
theorem not_stats_count_every_path :
    (¬ ∀ (sum256 : Bytes → ID) (root : ID) (tree : Nodes), tree.OneTree → tree.Sound →
      (statsWalkSnapshot (ε := Unit) sum256 loadAll (some (root, tree))
        {}).2.totalFileCount = (tree.paths [separator]).countP (·.2.type = .file)) ∧
    ¬ ∀ (sum256 : Bytes → ID) (root : ID) (tree : Nodes), tree.OneTree → tree.Sound →
      (statsWalkSnapshot (ε := Unit) sum256 loadAll (some (root, tree))
        {}).2.restoreSize = restoreSize tree.list := by
  obtain ⟨hone, hsound⟩ := sharedTree_loads
  constructor
  · intro hall
    have hfiles := hall (fun _ => .null) (.ofNat 2) sharedTree hone hsound
    revert hfiles
    decide
  · intro hall
    have hsize := hall (fun _ => .null) (.ofNat 2) sharedTree hone hsound
    revert hsize
    decide

def hardLink (name : String) : TreeNode := { sampleFile (ascii name) 3 [] with inode := 7 }

/-- A file and two names of another one, and a tree without files that is shared. -/
def sampleTree : Nodes :=
  .cons (sampleDir (ascii "a") (.ofNat 1)) (.cons (hardLink "f") .nil .nil)
    (.cons (sampleDir (ascii "b") (.ofNat 2)) .nil (.cons (sampleDir (ascii "c") (.ofNat 2)) .nil
        (.cons (sampleFile (ascii "f") 5 []) .nil (.cons (hardLink "g") .nil .nil))))

theorem stats_count_every_path_iff_sample :
    ∃ stats, statsWalkSnapshot (ε := Unit) (fun _ => .null) loadAll
        (some (.ofNat 3, sampleTree)) {} = (none, stats) ∧
      stats.totalFileCount = 3 ∧ stats.restoreSize = 8 := by
  have hone : sampleTree.OneTree := by
    intro id tree tree' h h'
    simp [sampleTree, Nodes.refs, treeOf, sampleDir, sampleFile, hardLink] at h h'
    rcases h with ⟨rfl, rfl⟩ | ⟨rfl, rfl⟩ <;> rcases h' with ⟨hid, rfl⟩ | ⟨hid, rfl⟩
    · rfl
    · exact absurd hid (by decide)
    · exact absurd hid (by decide)
    · rfl
  have hsound : sampleTree.Sound := by
    simp [sampleTree, Nodes.Sound, sampleDir, sampleFile, hardLink]
  have hsame : SameWeights inodeKey (·.size) sampleTree.list := by
    have hsizes : ∀ a ∈ sampleTree.list, ∀ b ∈ sampleTree.list,
        inodeKey a = inodeKey b → inodeKey b ≠ none → a.size = b.size := by decide
    intro a ha b hb k hka hkb
    exact hsizes a ha b hb (hka.trans hkb.symm) (by simp [hkb])
  obtain ⟨stats, hstats, hfiles, -, hsize⟩ := stats_count_every_path_iff (ε := Unit)
    (fun _ => .null) (.ofNat 3) sampleTree hone hsound
  refine ⟨stats, hstats, ?_, ?_⟩
  · exact hfiles.mpr (by decide)
  · exact (hsize hsame).mpr (by decide)

end Rapi.Cmd
