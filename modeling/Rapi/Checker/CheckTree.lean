import Rapi.Repository.MasterIndex
import Rapi.Restic.TreeVisits

/-!
# Checking one tree

`checkTree` looks at every node of a tree and collects what is wrong.  A node
is sound exactly if nothing is reported for it.  The check of the name comes
last, and a directory without a subtree is left before it: if such a node has no
name either, this is not reported.
-/

namespace Rapi.Checker

open Foundation Restic Repository List

/-- The messages of `checkTree`, with what is formatted into them. -/
inductive NodeError
  | nilBlobList (name : Bytes)
  | nullBlob (name : Bytes) (b : Nat)
  | blobNotFound (name : Bytes) (blobID : ID)
  | noSubtree (name : Bytes)
  | nullSubtree (name : Bytes)
  | invalidType (name : Bytes) (type : Bytes)
  | emptyName
  deriving DecidableEq

inductive Error
  | load (error : Restic.LoadError)
  | node (treeID : ID) (error : NodeError)
  deriving DecidableEq

structure TreeError where
  id : ID
  errors : List Error
  deriving DecidableEq

section Checks

variable (idx : MasterIndex)

def checkBlobID (name : Bytes) (b : Nat) (blobID : ID) : List NodeError :=
  if blobID.isNull then [.nullBlob name b]
  else
    match idx.lookupSize (dataHandle blobID) with
    | none => [.blobNotFound name blobID]
    | some _ => []

def checkContent (name : Bytes) : Nat → List ID → List NodeError
  | _, [] => []
  | b, blobID :: rest => checkBlobID idx name b blobID ++ checkContent name (b + 1) rest

def checkName (node : TreeNode) : List NodeError :=
  if node.name = [] then [.emptyName] else []

def checkNode (node : TreeNode) : List NodeError :=
  match node.type with
  | .file =>
    (if node.nilContent then [.nilBlobList node.name] else []) ++
      checkContent idx node.name 0 node.content ++ checkName node
  | .dir =>
    -- the loop goes on to the next node after an error
    match node.subtree with
    | none => [.noSubtree node.name]
    | some subtree =>
      if subtree.isNull then [.nullSubtree node.name] else checkName node
  | .symlink | .socket | .chardev | .dev | .fifo => checkName node
  | .other type => .invalidType node.name type :: checkName node

def checkTree (id : ID) (tree : Tree) : List Error :=
  (tree.nodes.flatMap (checkNode idx)).map (.node id)

/-- The blobs of a file are noted in `blobRefs`, but for null IDs. -/
def noteContent (trackUnused : Bool) (blobs : BlobSet) (node : TreeNode) : BlobSet :=
  match node.type, trackUnused with
  | .file, true =>
    node.content.foldl (fun blobs blobID =>
        if blobID.isNull then blobs else insert (dataHandle blobID) blobs) blobs
  | _, _ => blobs

end Checks

/-! ## What is wrong with a node -/

section Defects

variable {idx : MasterIndex} {node : TreeNode}

structure SoundNode (idx : MasterIndex) (node : TreeNode) : Prop where
  type : ∀ text, node.type ≠ .other text
  name : node.name ≠ []
  content : node.type = .file → node.nilContent = false ∧
    ∀ blobID ∈ node.content, blobID.isNull = false ∧
      ∃ pb ∈ idx.content, pb.toBlobHandle = dataHandle blobID
  subtree : node.type = .dir → ∃ id, node.subtree = some id ∧ id.isNull = false

/-- All that is wrong with a node, whatever else is wrong with it. -/
def defects (idx : MasterIndex) (node : TreeNode) : List NodeError :=
  (match node.type with
    | .file =>
      (if node.nilContent then [.nilBlobList node.name] else []) ++
        checkContent idx node.name 0 node.content
    | .dir =>
      match node.subtree with
      | none => [.noSubtree node.name]
      | some subtree => if subtree.isNull then [.nullSubtree node.name] else []
    | .symlink | .socket | .chardev | .dev | .fifo => []
    | .other type => [.invalidType node.name type]) ++ checkName node

/-- A directory that has neither a name nor a subtree. -/
def Nameless (node : TreeNode) : Prop :=
  node.type = .dir ∧ node.name = [] ∧ node.subtree.all ID.isNull

instance (node : TreeNode) : Decidable (Nameless node) := inferInstanceAs (Decidable (_ ∧ _ ∧ _))

theorem checkBlobID_eq_nil {name : Bytes} {b : Nat} {blobID : ID} :
    checkBlobID idx name b blobID = [] ↔ blobID.isNull = false ∧
      ∃ pb ∈ idx.content, pb.toBlobHandle = dataHandle blobID := by
  rw [← MasterIndex.isSome_lookupSize, checkBlobID]
  cases blobID.isNull <;> cases idx.lookupSize (dataHandle blobID) <;> simp

theorem checkContent_eq_nil {name : Bytes} {b : Nat} {content : List ID} :
    checkContent idx name b content = [] ↔ ∀ blobID ∈ content, blobID.isNull = false ∧
        ∃ pb ∈ idx.content, pb.toBlobHandle = dataHandle blobID := by
  induction content generalizing b with
  | nil => simp [checkContent]
  | cons blobID rest ih =>
    simp only [checkContent, append_eq_nil_iff, checkBlobID_eq_nil, ih, forall_mem_cons]

theorem checkName_eq_nil : checkName node = [] ↔ node.name ≠ [] := by simp [checkName]

theorem defects_eq_nil : defects idx node = [] ↔ SoundNode idx node := by
  rw [defects, append_eq_nil_iff, checkName_eq_nil]
  constructor
  · rintro ⟨htype, hname⟩
    refine ⟨?_, hname, ?_, ?_⟩
    · intro text hother
      simp [hother] at htype
    · intro hfile
      simpa [hfile, checkContent_eq_nil] using htype
    · intro hdir
      simp only [hdir] at htype
      cases hsubtree : node.subtree with
      | none => simp [hsubtree] at htype
      | some id => simpa [hsubtree] using htype
  · intro h
    refine ⟨?_, h.name⟩
    cases htype : node.type with
    | file => simpa [checkContent_eq_nil] using h.content htype
    | dir =>
      obtain ⟨id, hid, hnull⟩ := h.subtree htype
      simp [hid, hnull]
    | other text => exact absurd htype (h.type text)
    | _ => rfl

/-- Only the name of a nameless directory is left out. -/
theorem checkNode_eq : checkNode idx node = if Nameless node then (defects idx node).dropLast
      else defects idx node := by
  by_cases h : Nameless node
  · rw [if_pos h]
    obtain ⟨hdir, hname, hsubtree⟩ := h
    cases hid : node.subtree with
    | none => simp [checkNode, defects, hdir, hid, checkName, hname]
    | some id =>
      rw [hid, Option.all_some] at hsubtree
      simp [checkNode, defects, hdir, hid, hsubtree, checkName, hname]
  · rw [if_neg h]
    unfold checkNode defects
    cases htype : node.type with
    | dir =>
      simp only [Nameless, htype, true_and] at h
      cases hid : node.subtree with
      | none =>
        have hname : node.name ≠ [] := fun hname => h ⟨hname, by simp [hid]⟩
        simp [checkName, hname]
      | some id =>
        cases hnull : id.isNull with
        | false => simp [hnull]
        | true =>
          have hname : node.name ≠ [] := fun hname => h ⟨hname, by simp [hid, hnull]⟩
          simp [hnull, checkName, hname]
    | _ => simp

theorem defects_of_nameless (h : Nameless node) : 2 ≤ (defects idx node).length := by
  obtain ⟨hdir, hname, hsubtree⟩ := h
  cases hid : node.subtree with
  | none => simp [defects, hdir, hid, checkName, hname]
  | some id =>
    rw [hid] at hsubtree
    simp only [Option.all_some] at hsubtree
    simp [defects, hdir, hid, hsubtree, checkName, hname]

theorem checkNode_eq_nil : checkNode idx node = [] ↔ SoundNode idx node := by
  rw [checkNode_eq, ← defects_eq_nil]
  split
  · next h =>
      have hlength := @defects_of_nameless idx node h
      constructor
      · intro hnil
        have := congrArg length hnil
        simp at this
        omega
      · intro hnil
        simp [hnil] at hlength
  · rfl

theorem checkNode_eq_defects : checkNode idx node = defects idx node ↔ ¬ Nameless node := by
  rw [checkNode_eq]
  split
  · next h =>
      have hlength := @defects_of_nameless idx node h
      refine iff_of_false (fun heq => ?_) (not_not.mpr h)
      have := congrArg length heq
      simp at this
      omega
  · next h => exact iff_of_true rfl h

theorem length_checkNode_le : (checkNode idx node).length ≤ (defects idx node).length := by
  rw [checkNode_eq]
  split
  · simp
  · exact le_rfl

/-- The loop over the nodes finds all defects unless it meets such a node. -/
theorem flatMap_checkNode_eq {nodes : List TreeNode} :
    nodes.flatMap (checkNode idx) = nodes.flatMap (defects idx) ↔
      ∀ node ∈ nodes, ¬ Nameless node := by
  constructor
  · intro heq
    induction nodes with
    | nil => simp
    | cons node nodes ih =>
      have hlength : ∀ nodes : List TreeNode, (nodes.flatMap (checkNode idx)).length ≤
            (nodes.flatMap (defects idx)).length := by
        intro nodes
        simp only [length_flatMap]
        exact sum_le_sum fun node _ => length_checkNode_le
      rw [flatMap_cons, flatMap_cons] at heq
      have hsame : (checkNode idx node).length = (defects idx node).length := by
        have htotal := congrArg length heq
        rw [length_append, length_append] at htotal
        have hfirst := @length_checkNode_le idx node
        have hrest := hlength nodes
        omega
      obtain ⟨hfirst, hrest⟩ := append_inj heq hsame
      exact forall_mem_cons.mpr ⟨checkNode_eq_defects.mp hfirst, ih hrest⟩
  · intro h
    refine flatMap_congr fun node hnode => ?_
    exact checkNode_eq_defects.mpr (h node hnode)

theorem mem_noteContent {trackUnused : Bool} {blobs : BlobSet} {handle : BlobHandle} :
    handle ∈ noteContent trackUnused blobs node ↔ handle ∈ blobs ∨
      (trackUnused ∧ node.type = .file ∧ ∃ blobID ∈ node.content,
        blobID.isNull = false ∧ handle = dataHandle blobID) := by
  have hfold : ∀ (content : List ID) (blobs : BlobSet), handle ∈ content.foldl (fun blobs blobID =>
        if blobID.isNull then blobs else insert (dataHandle blobID) blobs)
        blobs ↔ handle ∈ blobs ∨ ∃ blobID ∈ content,
          blobID.isNull = false ∧ handle = dataHandle blobID := by
    intro content
    induction content with
    | nil => simp
    | cons blobID rest ih =>
      intro blobs
      rw [foldl_cons, ih]
      cases hnull : blobID.isNull with
      | true => simp [hnull]
      | false =>
        simp only [Bool.false_eq_true, if_false, Finset.mem_insert,
          mem_cons, exists_eq_or_imp, hnull, true_and]
        tauto
  unfold noteContent
  split
  · next htype => simp [hfold, htype]
  · next hother =>
      refine ⟨.inl, ?_⟩
      rintro (hold | ⟨htrack, htype, -⟩)
      · exact hold
      · exact absurd htrack (by simpa [htype] using hother)

end Defects

end Rapi.Checker
