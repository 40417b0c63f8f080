import Rapi.Archiver.Savers

/-!
# Snapshots

The goroutine of `Snapshot` that walks the targets.  It compares every file with
the node of the parent snapshot, sends files and directories to the savers, and
stores the trees above the targets itself.  `Snapshot` waits for all goroutines
and flushes the repository before it writes the snapshot file.  The tomb returns
the error of any goroutine, also of one that fails after `Kill(nil)`.
-/

namespace Rapi.Archiver

open Foundation
open Restic (ID BlobType BlobHandle NodeType TreeNode)
open Repository (Repo RepoState SaveError)

/-! ## Files and directories -/

/-- The handler does not see `context.Canceled`. -/
def archError : Error → ArchM (Option Error)
  | .canceled => return some .canceled
  | err => perform (.handler err)

def fileChanged (cfg : Config) (fi : FileInfo) (node : TreeNode) : Bool :=
  if node.type ≠ .file then true
  else if fi.size ≠ node.size then true
  else if fi.modTime ≠ node.modTime then true
  else if !cfg.ignoreCtime && fi.changeTime ≠ node.changeTime then true
  else if !cfg.ignoreInode && node.inode ≠ fi.inode then true
  else false

def allBlobsPresent : List ID → ArchM Bool
  | [] => return true
  | id :: rest => do
      if ← perform (.has ⟨id, .data⟩) then allBlobsPresent rest
      else return false

/-- `Find` on a tree that may be missing. -/
def findNode (tree : Option Restic.Tree) (name : Bytes) : Option TreeNode := tree.bind (·.find name)

def loadSubtree (node : Option TreeNode) : ArchM (Except Error (Option Restic.Tree)) :=
  match node with
  | none => return .ok none
  | some node =>
    match node.type, node.subtree with
    | .dir, some id => do
        match ← perform (.loadTree id) with
        | none => return .error (.loadTree id)
        | some tree => return .ok (some tree)
    | _, _ => return .ok none

/-- The subtree of the parent snapshot; an error may be ignored. -/
def oldSubtree (node : Option TreeNode) : ArchM (Except Error (Option Restic.Tree)) := do
  match ← loadSubtree node with
  | .ok tree => return .ok tree
  | .error err =>
    match ← archError err with
    | some err => return .error err
    | none => return .ok none

/-- What `Save` does with a failure: give it up, or leave the item out.  An
error that is wrapped is seen by the handler again, in the caller. -/
def excludeOnError (wrap : Error → Error) (err : Error) :
    ArchM (Except Error (Option FutureNode)) := do
  match ← archError err with
  | some err => return .error (wrap err)
  | none => return .ok none

/-- The part of `Save` for a file that has to be read. -/
def readFile (file : Except Error FileInfo) : ArchM (Except Error (Option FutureNode)) :=
  match file with
  | .error err => excludeOnError .wrapped err
  | .ok fi =>
    if fi.type ≠ .file then excludeOnError id .changedType
    else do
      let i ← perform (.sendFile fi)
      return .ok (some (.file i))

/-- The part of `Save` for a regular file. -/
def saveRegular (cfg : Config) (fi : FileInfo) (file : Except Error FileInfo)
    (previous : Option TreeNode) : ArchM (Except Error (Option FutureNode)) :=
  match previous with
  | none => readFile file
  | some node =>
    if fileChanged cfg fi node then readFile file
    else do
      if ← allBlobsPresent node.content then
        if ← perform .fails then return .error .nodeFromFileInfo
        else
          return .ok (some (.node
            { nodeFromFileInfo fi with
              content := node.content
              nilContent := node.nilContent
              content_of_nil := node.content_of_nil }))
      else
        match ← archError .contentsMissing with
        | some err => return .error err
        | none => readFile file

mutual

def save (cfg : Config) (item : Item) (previous : Option TreeNode) :
    ArchM (Except Error (Option FutureNode)) :=
  match item with
  | .absFails => return .error .abs
  | .excludedByName => return .ok none
  | .lstatFails => excludeOnError .wrapped .lstat
  | .found fi selected file readable names =>
    if !selected then return .ok none
    else
      match fi.type with
      | .file => saveRegular cfg fi file previous
      | .dir => do
          match ← oldSubtree previous with
          | .error err => return .error err
          | .ok tree =>
            -- `SaveDir`
            if ← perform .fails then return .error .nodeFromFileInfo
            else if !readable then return .error .readdirnames
            else
              match ← saveItems cfg names tree [] with
              | .error err => return .error err
              | .ok nodes =>
                let i ← perform (.sendTree (nodeFromFileInfo fi) nodes)
                return .ok (some (.tree i))
      | .socket => return .ok none
      | _ => do
          if ← perform .fails then return .error .nodeFromFileInfo
          else return .ok (some (.node (nodeFromFileInfo fi)))

def saveItems (cfg : Config) (items : Items) (previous : Option Restic.Tree)
    (nodes : List FutureNode) : ArchM (Except Error (List FutureNode)) :=
  match items with
  | .nil => return .ok nodes
  | .cons name item rest => do
      match ← perform (.ctxErr .main) with
      | some err => return .error err
      | none =>
        match ← save cfg item (findNode previous name) with
        | .error err =>
          match ← archError err with
          | none => saveItems cfg rest previous nodes
          | some err => return .error err
        | .ok none => saveItems cfg rest previous nodes
        | .ok (some fn) => saveItems cfg rest previous (nodes ++ [fn])

end

/-! ## The targets -/

mutual

/-- `NodeNames` puts the nodes of a tree in lexicographic order. -/
def Tree.sorted : Tree → Tree
  | .mk nodes path fileInfoPath root => .mk nodes.sorted path fileInfoPath root

def Nodes.sorted : Nodes → Nodes
  | .nil => .nil
  | .cons name tree rest => insertSorted name tree.sorted rest.sorted
where
  insertSorted (name : Bytes) (tree : Tree) : Nodes → Nodes
    | .nil => .cons name tree .nil
    | .cons other first rest =>
      if name < other then .cons name tree (.cons other first rest)
      else .cons other first (insertSorted name tree rest)

end

/-- Wait for the targets, and give the nodes their names in the snapshot. -/
def insertFutures : List (Bytes × FutureNode) → Restic.Tree → ArchM (Except Error Restic.Tree)
  | [], tree => return .ok tree
  | (name, fn) :: rest, tree => do
      match ← fn.wait .main with
      | (_, some err) =>
        match ← archError err with
        | none => insertFutures rest tree
        | some err => return .error err
      | (none, none) => insertFutures rest tree
      | (some node, none) =>
        match tree.insert { node with name := name } with
        | none => return .error (.nodePresent name)
        | some tree => insertFutures rest tree

/-- The directory above targets. -/
def saveSubtree (fileInfoPath name : Bytes) (subtree tree : Restic.Tree) :
    ArchM (Except Error Restic.Tree) := do
  match ← saveTree .main subtree with
  | .error err => return .error err
  | .ok id =>
    if fileInfoPath = [] then return .error .fileInfoPathEmpty
    else
      match ← perform (.statDir fileInfoPath) with
      | none => return .error .statDir
      | some fi =>
        if ← perform .fails then return .error .nodeFromFileInfo
        else
          match tree.insert { nodeFromFileInfo fi with
            name := name, subtree := some id } with
          | none => return .error (.nodePresent name)
          | some tree => return .ok tree

mutual

/-- Models `SaveTree`, on a tree whose nodes are sorted. -/
def saveAtree (cfg : Config) (atree : Tree) (previous : Option Restic.Tree) :
    ArchM (Except Error Restic.Tree) :=
  match atree with
  | .mk nodes _ _ _ => do
      match ← saveAtreeNodes cfg nodes previous ⟨[]⟩ [] with
      | .error err => return .error err
      | .ok (tree, futures) =>
        let order ← perform (.iterate futures)
        insertFutures order tree

def saveAtreeNodes (cfg : Config) (nodes : Nodes) (previous : Option Restic.Tree)
    (tree : Restic.Tree) (futures : List (Bytes × FutureNode)) :
    ArchM (Except Error (Restic.Tree × List (Bytes × FutureNode))) :=
  match nodes with
  | .nil => return .ok (tree, futures)
  | .cons name subatree rest => do
      match ← perform (.ctxErr .main) with
      | some err => return .error err
      | none =>
        match subatree with
        | .mk subnodes path fileInfoPath root =>
          if path ≠ [] then
            let item ← perform (.lookAt path)
            match ← save cfg item (findNode previous name) with
            | .error err =>
              match ← archError err with
              | none => saveAtreeNodes cfg rest previous tree futures
              | some err => return .error err
            | .ok none => saveAtreeNodes cfg rest previous tree futures
            | .ok (some fn) => saveAtreeNodes cfg rest previous tree (futures ++ [(name, fn)])
          else
            match ← oldSubtree (findNode previous name) with
            | .error err => return .error err
            | .ok old =>
              match ← saveAtree cfg (.mk subnodes path fileInfoPath root) old with
              | .error err => return .error err
              | .ok subtree =>
                match ← saveSubtree fileInfoPath name subtree tree with
                | .error err => return .error err
                | .ok tree => saveAtreeNodes cfg rest previous tree futures

end

/-- The goroutine that walks the targets; it returns the root of the
snapshot. -/
def walk (cfg : Config) (atree : Tree) : ArchM (Except Error (Option ID)) := do
  let parent ← perform .loadParentTree
  match ← saveAtree cfg atree.sorted parent with
  | .error err => return .error err
  | .ok tree =>
    if tree.nodes = [] then return .error .snapshotEmpty
    else
      let saved ← saveTree .main tree
      perform .kill
      return saved.map some

/-! ## The call -/

inductive Role (cfg : Config)
  | walk
  | blobWorker (i : Fin cfg.saveBlobConcurrency)
  | fileWorker (i : Fin cfg.fileReadConcurrency)
  | treeWorker (i : Fin cfg.saveTreeConcurrency)
  deriving DecidableEq, Fintype

def pool (cfg : Config) (start : RepoState) (atree : Tree) :
    Pool (RepoState × State) (Repository.Op ⊕ Op)
      (Sum.elim Repository.Op.Res Op.Res) (Except Error (Option ID)) (Role cfg) where
  state := (start, ⟨fun _ => false, false, [], [], []⟩)
  threads
    | .walk => .once (walk cfg atree)
    | .blobWorker _ => ⟨blobWorker cfg, blobWorker cfg⟩
    | .fileWorker _ => ⟨fileWorker, fileWorker⟩
    | .treeWorker _ => ⟨treeWorker, treeWorker⟩

/-- `Snapshot` writes a snapshot file with the given root tree, at the moment at
which the repository is in the given state. -/
def WritesSnapshot (cfg : Config) (start : RepoState) (atree : Tree)
    (root : ID) (s : RepoState) : Prop :=
  ∃ final results, Relation.ReflTransGen (Pool.Step (system cfg)) (pool cfg start atree) final ∧
    final.Finished results ∧ (∀ role, ∃ id, results role = .ok id) ∧
    results .walk = .ok (some root) ∧
    Runs Repository.system cfg.repo.flush final.state.1 none s

inductive Refers (treeOf : ID → Option Restic.Tree) (root : ID) : BlobHandle → Prop
  | root : Refers treeOf root ⟨root, .tree⟩
  | subtree {id sub : ID} {tree : Restic.Tree} :
      Refers treeOf root ⟨id, .tree⟩ → treeOf id = some tree →
      sub ∈ tree.subtrees → Refers treeOf root ⟨sub, .tree⟩
  | content {id blob : ID} {tree : Restic.Tree} {node : TreeNode} :
      Refers treeOf root ⟨id, .tree⟩ → treeOf id = some tree →
      node ∈ tree.nodes → node.type = .file → blob ∈ node.content → Refers treeOf root ⟨blob, .data⟩

end Rapi.Archiver
