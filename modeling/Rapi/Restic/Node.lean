import Rapi.Restic.Blob

/-!
# Nodes of a snapshot tree

A node is a file, a directory or another item of a directory in a snapshot.
Only the fields that decide where and how it is restored are kept.  In a stored
tree a directory names the tree of its own nodes by the ID of that tree, and the
times say whether a file has changed.
-/

namespace Rapi.Restic

open Foundation

inductive NodeType
  | file
  | dir
  | symlink
  | dev
  | chardev
  | fifo
  | socket
  | other (text : Bytes)
  deriving DecidableEq

structure Node where
  name : Bytes
  type : NodeType
  size : Nat
  links : Nat
  inode : Nat
  deviceID : Nat
  content : List ID
  deriving DecidableEq

/-- `Content` can be nil, which is not the same as an empty list. -/
structure TreeNode extends Node where
  subtree : Option ID
  modTime : Nat
  changeTime : Nat
  nilContent : Bool
  content_of_nil : nilContent → content = []
  deriving DecidableEq

theorem TreeNode.empty_of_nil {nilContent : Bool} : nilContent → ([] : List ID) = [] := fun _ => rfl

def sampleFile (name : Bytes) (size : Nat) (content : List ID) : TreeNode :=
  ⟨⟨name, .file, size, 1, 0, 0, content⟩, none, 0, 0, false, fun h => absurd h Bool.false_ne_true⟩

def sampleDir (name : Bytes) (id : ID) : TreeNode :=
  ⟨⟨name, .dir, 0, 1, 0, 0, []⟩, some id, 0, 0, true, TreeNode.empty_of_nil⟩

structure Tree where
  nodes : List TreeNode
  deriving DecidableEq

/-- The binary search of `sort.Search` between `i` and `j`. -/
def search (f : Nat → Bool) : Nat → Nat → Nat → Nat
  | 0, i, _ => i
  | fuel + 1, i, j =>
    if i < j then
      let h := (i + j) / 2
      if f h then search f fuel i h else search f fuel (h + 1) j
    else i

namespace Tree

def position (t : Tree) (name : Bytes) : Nat :=
  search (fun i => t.nodes[i]?.all fun node => !decide (node.name < name))
    t.nodes.length 0 t.nodes.length

def find (t : Tree) (name : Bytes) : Option TreeNode :=
  t.nodes[t.position name]?.filter (·.name = name)

/-- Nothing is inserted if a node with the name is found. -/
def insert (t : Tree) (node : TreeNode) : Option Tree :=
  match t.find node.name with
  | some _ => none
  | none =>
    let pos := t.position node.name
    some ⟨t.nodes.take pos ++ node :: t.nodes.drop pos⟩

theorem mem_insert {t t' : Tree} {node other : TreeNode} (h : t.insert node = some t')
    (hother : other ∈ t'.nodes) : other = node ∨ other ∈ t.nodes := by
  unfold insert at h
  split at h
  · cases h
  · simp only [Option.some.injEq] at h
    subst h
    simp only [List.mem_append, List.mem_cons] at hother
    rcases hother with hother | rfl | hother
    · exact Or.inr (List.mem_of_mem_take hother)
    · exact Or.inl rfl
    · exact Or.inr (List.mem_of_mem_drop hother)

def subtrees (t : Tree) : List ID :=
  t.nodes.filterMap fun node => if node.type = .dir then node.subtree else none

end Tree

end Rapi.Restic
