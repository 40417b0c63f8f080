import Rapi.Foundation.Program
import Rapi.Walker.Walk

/-!
# Walks that ignore nothing

If no tree fails to load and the called function never ignores a node and never
fails, then it is called for every node of the unfolded tree, in order.  What the
calls do is described by an invariant over the nodes that were visited.
-/

namespace Rapi.Walker

open Foundation Foundation.FilePath Restic Logic

section Visits

variable {σ Op : Type} {Res : Op → Type} {M ε : Type} [AddCommMonoid M]
  {logic : Logic σ M} {sys : System σ Op Res}
  {loadTree : ID → Prog Op Res (Option ε)} {walkFn : WalkFunc (Prog Op Res) ε}
  {visited : List (Bytes × TreeNode) → M → Prop}

variable (logic sys loadTree visited) in
/-- The tree is loaded, which changes nothing. -/
def Loads (id : ID) : Prop :=
  ∀ l s m, visited l m →
    logic.wp sys (loadTree id) (fun failure _ m => failure = none ∧ visited l m) s m

variable (logic sys walkFn visited) in
/-- A call of the function visits the node. -/
def CallVisits (parentTreeID : ID) (path : Bytes) (node : TreeNode) : Prop :=
  ∀ l s m, visited l m → logic.wp sys (walkFn parentTreeID path (some node) none)
      (fun answer _ m => answer = (false, none) ∧ visited (l ++ [(path, node)]) m) s m

theorem Nodes.wp_walk (nodes : Nodes) (hsound : nodes.Sound)
    (hload : ∀ id ∈ nodes.trees, Loads logic sys loadTree visited id)
    (hcall : ∀ parentTreeID path node,
      CallVisits logic sys walkFn visited parentTreeID path node) (pre : Bytes) (parentTreeID : ID)
    (allNodesIgnored : Bool) {l : List (Bytes × TreeNode)} (s : σ) {m : M} (hl : visited l m) :
    logic.wp sys (nodes.walk loadTree walkFn pre parentTreeID allNodesIgnored ∅)
      (fun result _ m => result = (.ok (allNodesIgnored && nodes.isNil), ∅) ∧
        visited (l ++ nodes.paths pre) m) s m := by
  induction nodes generalizing pre parentTreeID allNodesIgnored l s m with
  | nil =>
    refine wp_pure fun s' _ => ⟨?_, ?_⟩
    · rw [Nodes.isNil, Bool.and_true]
    · rw [Nodes.paths, List.append_nil]
      exact hl
  | cons node children rest ihc ihr =>
    obtain ⟨htype, hdir, hleaf, hchildren, hrest⟩ := hsound
    have hloadRest : ∀ id ∈ rest.trees, Loads logic sys loadTree visited id := by
      intro id hid
      refine hload id ?_
      obtain ⟨tree, htree⟩ := mem_trees.mp hid
      exact mem_trees.mpr ⟨tree, by simp [refs, htree]⟩
    rw [walk, if_neg htype]
    by_cases hnode : node.type = .dir
    · obtain ⟨id, hid⟩ := Option.ne_none_iff_exists'.mp (hdir hnode)
      have htree : treeOf node = some id := by simp [treeOf, hnode, hid]
      have htrees : (cons node children rest).trees =
          insert id (children.trees ∪ rest.trees) := trees_cons htree
      have hloadChildren : ∀ id ∈ children.trees,
          Loads logic sys loadTree visited id := by
        intro id' hid'
        refine hload id' ?_
        rw [htrees]
        exact Finset.mem_insert_of_mem (Finset.mem_union_left _ hid')
      have hloadTree : Loads logic sys loadTree visited id :=
        hload id (htrees ▸ Finset.mem_insert_self id _)
      rw [if_neg (not_not_intro hnode)]
      simp only [hid, Finset.notMem_empty, if_false]
      refine wp_bind (wp_mono (hloadTree l s m hl) ?_)
      rintro failure s₁ m₁ - ⟨rfl, hl₁⟩
      refine wp_bind (wp_mono (hcall parentTreeID (join pre node.name) node l s₁ m₁ hl₁) ?_)
      rintro answer s₂ m₂ - ⟨rfl, hl₂⟩
      -- the directory itself is not ignored, and neither is its tree
      have hempty : ∀ ignored : Bool, ignored = false → ignoreIf ignored id ∅ = ∅ := by
        rintro ignored rfl
        rfl
      simp only [Option.isSome_none, Bool.false_eq_true, if_false, hempty]
      refine wp_bind (wp_mono (ihc hchildren hloadChildren
        (join pre node.name) id (!children.isNil) s₂ hl₂) ?_)
      rintro result s₃ m₃ - ⟨rfl, hl₃⟩
      simp only [hempty _ (Bool.not_and_self children.isNil)]
      refine wp_mono (ihr hrest hloadRest pre parentTreeID _ s₃ hl₃) ?_
      rintro result s₄ m₄ - ⟨rfl, hl₄⟩
      refine ⟨?_, ?_⟩
      · simp [Nodes.isNil]
      · rw [Nodes.paths]
        rw [List.append_assoc, List.append_assoc] at hl₄
        exact hl₄
    · obtain rfl := hleaf hnode
      rw [if_pos hnode]
      refine wp_bind (wp_mono (hcall parentTreeID (join pre node.name) node l s m hl) ?_)
      rintro answer s₁ m₁ - ⟨rfl, hl₁⟩
      refine wp_mono (ihr hrest hloadRest pre parentTreeID _ s₁ hl₁) ?_
      rintro result s₂ m₂ - ⟨rfl, hl₂⟩
      refine ⟨?_, ?_⟩
      · simp [Nodes.isNil]
      · rw [Nodes.paths, Nodes.paths, List.nil_append]
        rw [List.append_assoc] at hl₂
        exact hl₂

theorem wp_walk {tree : Nodes} (hsound : tree.Sound) {root : ID}
    (hroot : Loads logic sys loadTree visited root)
    (hload : ∀ id ∈ tree.trees, Loads logic sys loadTree visited id)
    (hfirst : ∀ l s m, visited l m → logic.wp sys (walkFn root [separator] none none)
        (fun answer _ m => answer = (false, none) ∧ visited l m) s m)
    (hcall : ∀ parentTreeID path node, CallVisits logic sys walkFn visited parentTreeID path node)
    {l : List (Bytes × TreeNode)} (s : σ) {m : M} (hl : visited l m) :
    logic.wp sys (walk loadTree walkFn root tree ∅)
      (fun result _ m => result = none ∧ visited (l ++ tree.paths [separator]) m)
      s m := by
  rw [walk]
  refine wp_bind (wp_mono (hroot l s m hl) ?_)
  rintro failure s₁ m₁ - ⟨rfl, hl₁⟩
  refine wp_bind (wp_mono (hfirst l s₁ m₁ hl₁) ?_)
  rintro answer s₂ m₂ - ⟨rfl, hl₂⟩
  simp only [Option.isSome_none, Bool.false_eq_true, if_false]
  refine wp_bind (wp_mono (tree.wp_walk hsound hload hcall
    [separator] root (!tree.isNil) s₂ hl₂) ?_)
  rintro result s₃ m₃ - ⟨rfl, hl₃⟩
  exact wp_pure fun s' _ => ⟨rfl, hl₃⟩

end Visits

end Rapi.Walker
