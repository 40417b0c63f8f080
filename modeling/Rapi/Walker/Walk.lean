import Rapi.Foundation.FilePath
import Rapi.Restic.Node

/-!
# Walking over a snapshot tree

`Walk` calls a function for each node of a tree and descends into directories.
A tree that the function wants to be ignored is not visited again.  The model
contains the trees that the directories refer to, and a tree lists its nodes in
the order in which the walk sorts them; loading a tree is a step that may fail.
The steps are those of any monad.
-/

namespace Rapi.Walker

open Foundation Foundation.FilePath Restic List

/-- The nodes of a tree, each with the nodes of the tree that it refers to. -/
inductive Nodes
  | nil
  | cons (node : TreeNode) (children rest : Nodes)

def Nodes.isNil : Nodes → Bool
  | .nil => true
  | .cons _ _ _ => false

/-- What the called function may return as an error. -/
inductive Stop (ε : Type)
  | skipNode
  | failed (err : ε)

inductive WalkError (ε : Type)
  | callback (err : ε)
  | emptyType (name : Bytes)
  | nilSubtree (name path : Bytes)
  /-- The function ignores that a tree was not loaded. -/
  | panics

abbrev WalkFunc (m : Type → Type) (ε : Type) :=
  ID → Bytes → Option TreeNode → Option ε → m (Bool × Option (Stop ε))

section Walk

variable {m : Type → Type} [Monad m] {ε : Type}
variable (loadTree : ID → m (Option ε)) (walkFn : WalkFunc m ε)

/-- Add a tree to the ignored ones if the condition holds. -/
def ignoreIf (condition : Bool) (id : ID) (ignoreTrees : Finset ID) : Finset ID :=
  if condition then insert id ignoreTrees else ignoreTrees

/-- The loop over the nodes; the flag is `allNodesIgnored`. -/
def Nodes.walk : Nodes → Bytes → ID → Bool → Finset ID → m (Except (WalkError ε) Bool × Finset ID)
  | .nil, _, _, allNodesIgnored, ignoreTrees => return (.ok allNodesIgnored, ignoreTrees)
  | .cons node children rest, pre, parentTreeID, allNodesIgnored, ignoreTrees =>
    let p := join pre node.name
    if node.type = .other [] then return (.error (.emptyType node.name), ignoreTrees)
    else if node.type ≠ .dir then do
      match ← walkFn parentTreeID p (some node) none with
      | (_, some .skipNode) => return (.ok allNodesIgnored, ignoreTrees)
      | (_, some (.failed err)) => return (.error (.callback err), ignoreTrees)
      | (ignore, none) => rest.walk pre parentTreeID (allNodesIgnored && ignore) ignoreTrees
    else
      match node.subtree with
      | none => return (.error (.nilSubtree node.name p), ignoreTrees)
      | some subtree =>
        if subtree ∈ ignoreTrees then
          rest.walk pre parentTreeID allNodesIgnored ignoreTrees
        else do
          let failure ← loadTree subtree
          match ← walkFn parentTreeID p (some node) failure with
          | (ignore, some .skipNode) =>
            rest.walk pre parentTreeID allNodesIgnored (ignoreIf ignore subtree ignoreTrees)
          | (_, some (.failed err)) => return (.error (.callback err), ignoreTrees)
          | (ignore, none) =>
            let ignoreTrees := ignoreIf ignore subtree ignoreTrees
            if failure.isSome then return (.error .panics, ignoreTrees)
            else
              match ← children.walk p subtree (!children.isNil) ignoreTrees with
              | (.error err, ignoreTrees) => return (.error err, ignoreTrees)
              | (.ok childrenIgnored, ignoreTrees) =>
                rest.walk pre parentTreeID (allNodesIgnored && ignore && childrenIgnored)
                  (ignoreIf childrenIgnored subtree ignoreTrees)

/-- `Walk`, with the nodes of the tree that has the ID. -/
def walk (root : ID) (tree : Nodes) (ignoreTrees : Finset ID) : m (Option (WalkError ε)) := do
  let failure ← loadTree root
  match ← walkFn root [separator] none failure with
  | (_, some .skipNode) => return none
  | (_, some (.failed err)) => return some (.callback err)
  | (_, none) =>
    if failure.isSome then return some .panics
    else
      match ← tree.walk loadTree walkFn [separator] root (!tree.isNil) ignoreTrees with
      | (.error err, _) => return some err
      | (.ok _, _) => return none

end Walk

/-! ## The unfolded tree -/

def treeOf (node : TreeNode) : Option ID :=
  if node.type = .dir then node.subtree else none

namespace Nodes

def list : Nodes → List TreeNode
  | nil => []
  | cons node children rest => node :: (children.list ++ rest.list)

def paths (pre : Bytes) : Nodes → List (Bytes × TreeNode)
  | nil => []
  | cons node children rest =>
    let p := join pre node.name
    (p, node) :: (children.paths p ++ rest.paths pre)

theorem map_snd_paths (pre : Bytes) (nodes : Nodes) :
    (nodes.paths pre).map Prod.snd = nodes.list := by
  induction nodes generalizing pre with
  | nil => rfl
  | cons node children rest ihc ihr => simp only [paths, list, map_cons, map_append, ihc, ihr]

def refs : Nodes → List (ID × Nodes)
  | nil => []
  | cons node children rest => (treeOf node).toList.map (·, children) ++ children.refs ++ rest.refs

def trees (nodes : Nodes) : Finset ID := (nodes.refs.map Prod.fst).toFinset

def Sound : Nodes → Prop
  | nil => True
  | cons node children rest =>
    node.type ≠ .other [] ∧ (node.type = .dir → node.subtree ≠ none) ∧
      (node.type ≠ .dir → children = nil) ∧ children.Sound ∧ rest.Sound

def OneTree (nodes : Nodes) : Prop :=
  ∀ id tree tree', (id, tree) ∈ nodes.refs → (id, tree') ∈ nodes.refs → tree = tree'

/-- The nodes that are not in a tree that occurred before. -/
def fresh : Nodes → Finset ID → List TreeNode
  | nil, _ => []
  | cons node children rest, before =>
    match treeOf node with
    | none => node :: rest.fresh before
    | some id =>
      if id ∈ before then rest.fresh before
      else
        let before := insert id before
        node :: (children.fresh before ++ rest.fresh (before ∪ children.trees))

/-- The directories whose tree occurred before, and all nodes below them. -/
def again : Nodes → Finset ID → List TreeNode
  | nil, _ => []
  | cons node children rest, before =>
    match treeOf node with
    | none => children.list ++ rest.again before
    | some id =>
      if id ∈ before then node :: (children.list ++ rest.again before)
      else
        let before := insert id before
        children.again before ++ rest.again (before ∪ children.trees)

theorem list_perm (nodes : Nodes) (before : Finset ID) :
    nodes.list.Perm (nodes.fresh before ++ nodes.again before) := by
  induction nodes generalizing before with
  | nil => exact .nil
  | cons node children rest ihc ihr =>
    rw [list, fresh, again]
    cases treeOf node with
    | none =>
      refine .cons node ?_
      exact (List.Perm.append_left _ (ihr before)).trans (perm_append_comm_assoc _ _ _)
    | some id =>
      dsimp only
      split
      · have hrest := (List.Perm.append_left children.list (ihr before)).trans
          (perm_append_comm_assoc _ _ _)
        exact (hrest.cons node).trans perm_middle.symm
      · refine .cons node ?_
        have hboth := (ihc (insert id before)).append (ihr (insert id before ∪ children.trees))
        refine hboth.trans ?_
        simp only [append_eq, append_assoc]
        exact .append_left _ (perm_append_comm_assoc _ _ _)

variable {nodes tree : Nodes} {id : ID}

theorem fresh_eq_list {before : Finset ID} (h : nodes.again before = []) :
    nodes.fresh before = nodes.list := by
  induction nodes generalizing before with
  | nil => rfl
  | cons node children rest ihc ihr =>
    rw [again] at h
    rw [fresh, list]
    cases htree : treeOf node with
    | none =>
      simp only [htree, append_eq_nil_iff] at h
      simp [h.1, ihr h.2]
    | some id =>
      simp only [htree] at h
      split at h
      · cases h
      · rename_i hbefore
        obtain ⟨hchildren, hrest⟩ := append_eq_nil_iff.mp h
        simp only [hbefore, if_false, ihc hchildren, ihr hrest]

theorem refs_cons {node : TreeNode} {children rest : Nodes} (hid : treeOf node = some id) :
    (cons node children rest).refs = (id, children) :: (children.refs ++ rest.refs) := by
  simp [refs, hid]

theorem trees_cons {node : TreeNode} {children rest : Nodes} (hid : treeOf node = some id) :
    (cons node children rest).trees = insert id (children.trees ∪ rest.trees) := by
  simp [trees, refs_cons hid, toFinset_append]

theorem mem_trees : id ∈ nodes.trees ↔ ∃ tree, (id, tree) ∈ nodes.refs := by simp [trees]

theorem list_trans (h : (id, tree) ∈ nodes.refs) : tree.list ⊆ nodes.list := by
  induction nodes with
  | nil => cases h
  | cons node children rest ihc ihr =>
    simp only [refs, mem_append, mem_map, Prod.mk.injEq] at h
    obtain (⟨_, -, -, rfl⟩ | hchild) | hrest := h
    · intro n hn
      simp [list, hn]
    · intro n hn
      simp [list, ihc hchild hn]
    · intro n hn
      simp [list, ihr hrest hn]

theorem refs_trans (h : (id, tree) ∈ nodes.refs) : tree.refs ⊆ nodes.refs := by
  induction nodes with
  | nil => cases h
  | cons node children rest ihc ihr =>
    simp only [refs, mem_append, mem_map, Prod.mk.injEq] at h ⊢
    obtain (⟨_, -, -, rfl⟩ | hchild) | hrest := h
    · intro ref href
      simp [href]
    · intro ref href
      simp [ihc hchild href]
    · intro ref href
      simp [ihr hrest href]

/-- Where a tree smaller than the bound occurred, its own trees did as well.  The
trees that the walk is in are larger. -/
def Closed (all : Nodes) (bound : Nat) (before : Finset ID) : Prop :=
  ∀ id tree, (id, tree) ∈ all.refs → id ∈ before → sizeOf tree < bound → tree.trees ⊆ before

section Closed

variable {all : Nodes} {bound : Nat} {before : Finset ID}

theorem Closed.union {nodes : Nodes} (hone : all.OneTree) (hnodes : nodes.refs ⊆ all.refs)
    (h : all.Closed bound before) : all.Closed bound (before ∪ nodes.trees) := by
  intro id tree htree hid hsize
  obtain hid | hid := Finset.mem_union.mp hid
  · exact (h id tree htree hid hsize).trans Finset.subset_union_left
  · obtain ⟨tree', htree'⟩ := mem_trees.mp hid
    obtain rfl := hone id tree tree' htree (hnodes htree')
    intro sub hsub
    obtain ⟨subtree, hsubtree⟩ := mem_trees.mp hsub
    exact Finset.mem_union_right _ (mem_trees.mpr ⟨subtree, refs_trans htree' hsubtree⟩)

theorem Closed.enter {id : ID} {tree : Nodes} (hone : all.OneTree)
    (htree : (id, tree) ∈ all.refs) (hsize : sizeOf tree < bound)
    (h : all.Closed bound before) : all.Closed (sizeOf tree) (insert id before) := by
  intro id' tree' htree' hid' hsize'
  obtain rfl | hid' := Finset.mem_insert.mp hid'
  · obtain rfl := hone id' tree tree' htree htree'
    exact absurd hsize' (Nat.lt_irrefl _)
  · exact (h id' tree' htree' hid' (hsize'.trans hsize)).trans (Finset.subset_insert id before)

end Closed

/-- The node is in a tree below the bound that occurred before. -/
def Earlier (all : Nodes) (before : Finset ID) (bound : Nat) (n : TreeNode) : Prop :=
  ∃ id tree, (id, tree) ∈ all.refs ∧ id ∈ before ∧ sizeOf tree < bound ∧ n ∈ tree.list

theorem Earlier.mono {all : Nodes} {before : Finset ID} {bound bound' : Nat} {n : TreeNode}
    (h : all.Earlier before bound n) (hle : bound ≤ bound') : all.Earlier before bound' n := by
  obtain ⟨id, tree, htree, hid, hsize, hn⟩ := h
  exact ⟨id, tree, htree, hid, hsize.trans_le hle, hn⟩

/-- What is not a directory is visited, here or where its tree occurred before. -/
theorem mem_fresh_of_mem {all : Nodes} (hone : all.OneTree) (hnodes : nodes.refs ⊆ all.refs)
    (hsound : nodes.Sound) (before : Finset ID) {n : TreeNode} (hn : n ∈ nodes.list)
    (hdir : n.type ≠ .dir) : n ∈ nodes.fresh before ∨ all.Earlier before (sizeOf nodes) n := by
  induction nodes generalizing before with
  | nil => cases hn
  | cons node children rest ihc ihr =>
    obtain ⟨-, hsub, hleaf, hchildren, hrest⟩ := hsound
    have hrefs : children.refs ⊆ all.refs ∧ rest.refs ⊆ all.refs := by
      constructor <;> intro ref href <;> apply hnodes <;> simp [refs, href]
    have hsizes : sizeOf children < sizeOf (cons node children rest) ∧
        sizeOf rest < sizeOf (cons node children rest) := by
      simp only [cons.sizeOf_spec]
      omega
    rw [list, mem_cons, mem_append] at hn
    rw [fresh]
    by_cases hnode : node.type = .dir
    · obtain ⟨id, hid⟩ := Option.ne_none_iff_exists'.mp (hsub hnode)
      have htree : treeOf node = some id := by simp [treeOf, hnode, hid]
      have href : (id, children) ∈ all.refs := hnodes (by simp [refs_cons htree])
      rw [htree]
      dsimp only
      obtain rfl | hn := hn
      · exact absurd hnode hdir
      split
      · rename_i hbefore
        obtain hn | hn := hn
        · exact .inr ⟨id, children, href, hbefore, hsizes.1, hn⟩
        · exact (ihr hrefs.2 hrest before hn).imp_right (·.mono hsizes.2.le)
      · -- a node below was visited there, or in a smaller tree from before
        have hbelow : n ∈ children.list → n ∈ children.fresh (insert id before) ∨
            all.Earlier before (sizeOf (cons node children rest)) n := by
          intro hn
          obtain hfresh | ⟨id', tree', htree', hid', hsize', hn'⟩ :=
            ihc hrefs.1 hchildren (insert id before) hn
          · exact .inl hfresh
          · obtain rfl | hid' := Finset.mem_insert.mp hid'
            · obtain rfl := hone id' children tree' href htree'
              exact absurd hsize' (Nat.lt_irrefl _)
            · exact .inr ⟨id', tree', htree', hid', hsize'.trans hsizes.1, hn'⟩
        rw [mem_cons, mem_append, or_assoc, or_assoc]
        refine .inr ?_
        obtain hn | hn := hn
        · exact (hbelow hn).imp_right .inr
        · obtain hfresh | ⟨id', tree', htree', hid', hsize', hn'⟩ :=
            ihr hrefs.2 hrest (insert id before ∪ children.trees) hn
          · exact .inr (.inl hfresh)
          · obtain hid' | hid' := Finset.mem_union.mp hid'
            · obtain rfl | hid' := Finset.mem_insert.mp hid'
              · obtain rfl := hone id' children tree' href htree'
                exact (hbelow hn').imp_right .inr
              · exact .inr (.inr ⟨id', tree', htree', hid', hsize'.trans hsizes.2, hn'⟩)
            · obtain ⟨tree'', htree''⟩ := mem_trees.mp hid'
              obtain rfl := hone id' tree' tree'' htree' (hrefs.1 htree'')
              exact (hbelow (list_trans htree'' hn')).imp_right .inr
    · have htree : treeOf node = none := by simp [treeOf, hnode]
      obtain rfl := hleaf hnode
      rw [htree]
      obtain rfl | hn | hn := hn
      · exact .inl mem_cons_self
      · cases hn
      · exact (ihr hrefs.2 hrest before hn).imp (mem_cons_of_mem _) (·.mono hsizes.2.le)

end Nodes

/-! ## Functions that ignore everything -/

section Ignoring

variable {σ ε : Type} {walkFn : WalkFunc (StateM σ) ε} {visit : σ → TreeNode → σ}

def loadAll (_ : ID) : StateM σ (Option ε) := return none

def Ignores (walkFn : WalkFunc (StateM σ) ε) (visit : σ → TreeNode → σ) (nodes : Nodes) : Prop :=
  ∀ node ∈ nodes.list, ∀ parentTreeID p s,
    walkFn parentTreeID p (some node) none s = ((true, none), visit s node)

theorem bind_eq_of_eq {α β : Type} {x : StateM σ α} {f : α → StateM σ β} {s s' : σ}
    {a : α} (h : x s = (a, s')) : (x >>= f) s = f a s' := by
  change (match x s with | (a, s) => f a s) = f a s'
  rw [h]

/-- Each tree is visited where it occurs first. -/
theorem Nodes.walk_ignoring {all : Nodes} (hone : all.OneTree) (nodes : Nodes)
    (hnodes : nodes.refs ⊆ all.refs) (hfn : Ignores walkFn visit nodes) (hsound : nodes.Sound)
    (pre : Bytes) (parentTreeID : ID) (allNodesIgnored : Bool) {bound : Nat} {before : Finset ID}
    (hbound : sizeOf nodes ≤ bound) (hclosed : all.Closed bound before) (s : σ) :
    ∃ ignore, nodes.walk loadAll walkFn pre parentTreeID allNodesIgnored before s =
      ((.ok ignore, before ∪ nodes.trees), (nodes.fresh before).foldl visit s) := by
  induction nodes generalizing pre parentTreeID allNodesIgnored bound before s with
  | nil =>
    refine ⟨allNodesIgnored, ?_⟩
    have htrees : before ∪ nil.trees = before := by simp [trees, refs]
    rw [htrees]
    rfl
  | cons node children rest ihc ihr =>
    obtain ⟨htype, hdir, hleaf, hchildren, hrest⟩ := hsound
    have hrefs : children.refs ⊆ all.refs ∧ rest.refs ⊆ all.refs := by
      constructor <;> intro ref href <;> apply hnodes <;> simp [refs, href]
    have hcalls : Ignores walkFn visit children ∧ Ignores walkFn visit rest := by
      constructor <;> intro n hn <;> apply hfn <;> simp [list, hn]
    have hsizes : sizeOf children < bound ∧ sizeOf rest ≤ bound := by
      simp only [cons.sizeOf_spec] at hbound
      omega
    rw [walk, if_neg htype, fresh]
    by_cases hnode : node.type = .dir
    · obtain ⟨id, hid⟩ := Option.ne_none_iff_exists'.mp (hdir hnode)
      have htree : treeOf node = some id := by simp [treeOf, hnode, hid]
      simp only [hnode, hid, htree, ne_eq, not_true_eq_false, if_false, trees_cons htree]
      by_cases hbefore : id ∈ before
      · have hseen : children.trees ⊆ before :=
          hclosed id children (hnodes (by simp [refs_cons htree])) hbefore hsizes.1
        obtain ⟨ignore, hwalk⟩ := ihr hrefs.2 hcalls.2 hrest pre parentTreeID
          allNodesIgnored hsizes.2 hclosed s
        refine ⟨ignore, ?_⟩
        have htrees : before ∪ insert id (children.trees ∪ rest.trees) = before ∪ rest.trees := by
          rw [Finset.union_insert, Finset.insert_eq_of_mem (by simp [hbefore]),
            ← Finset.union_assoc, Finset.union_eq_left.mpr hseen]
        rw [if_pos hbefore, if_pos hbefore, hwalk, htrees]
      · rw [if_neg hbefore, if_neg hbefore]
        have henter : all.Closed (sizeOf children) (insert id before) :=
          hclosed.enter hone (hnodes (by simp [refs_cons htree])) hsizes.1
        obtain ⟨ignore, hwalk⟩ := ihc hrefs.1 hcalls.1 hchildren (join pre node.name) id
          (!children.isNil) (Nat.le_refl _) henter (visit s node)
        have hleave : all.Closed bound (insert id before ∪ children.trees) := by
          have hfirst : (cons node children nil).refs ⊆ all.refs := by
            rw [refs_cons htree]
            refine cons_subset.mpr ⟨hnodes (by simp [refs_cons htree]), ?_⟩
            simpa [refs] using hrefs.1
          have hunion := hclosed.union hone hfirst
          rw [trees_cons htree, Finset.union_insert, ← Finset.insert_union] at hunion
          simpa [trees, refs] using hunion
        obtain ⟨ignore', hwalk'⟩ := ihr hrefs.2 hcalls.2 hrest pre parentTreeID
          (allNodesIgnored && true && ignore) hsizes.2 hleave
          ((children.fresh (insert id before)).foldl visit (visit s node))
        refine ⟨ignore', ?_⟩
        have htrees : before ∪ insert id (children.trees ∪ rest.trees) =
            insert id before ∪ children.trees ∪ rest.trees := by
          rw [Finset.union_insert, ← Finset.insert_union, Finset.union_assoc]
        have hkept : ignoreIf ignore id (insert id before ∪ children.trees) =
            insert id before ∪ children.trees := by
          cases ignore <;> simp [ignoreIf]
        have hignored : ignoreIf true id before = insert id before := rfl
        rw [bind_eq_of_eq (x := loadAll id) rfl, bind_eq_of_eq (hfn node (by simp [list]) _ _ _)]
        simp only [Option.isSome_none, Bool.false_eq_true, if_false, hignored]
        rw [bind_eq_of_eq hwalk]
        dsimp only
        rw [hkept, hwalk', htrees, foldl_cons, foldl_append]
    · have htree : treeOf node = none := by simp [treeOf, hnode]
      simp only [hnode, htree, ne_eq, not_false_eq_true, if_true]
      obtain rfl := hleaf hnode
      obtain ⟨ignore, hwalk⟩ := ihr hrefs.2 hcalls.2 hrest pre parentTreeID
        (allNodesIgnored && true) hsizes.2 hclosed (visit s node)
      refine ⟨ignore, ?_⟩
      have htrees : (cons node nil rest).trees = rest.trees := by simp [trees, refs, htree]
      rw [htrees, bind_eq_of_eq (hfn node (by simp [list]) _ _ _)]
      exact hwalk

theorem walk_ignoring {tree : Nodes} (hfn : Ignores walkFn visit tree) {root : ID}
    {s : σ} (hroot : walkFn root [separator] none none s = ((true, none), s))
    (hone : tree.OneTree) (hsound : tree.Sound) :
    walk loadAll walkFn root tree ∅ s = (none, (tree.fresh ∅).foldl visit s) := by
  have hclosed : tree.Closed (sizeOf tree) ∅ := by
    intro id _ _ hid
    cases hid
  obtain ⟨ignore, hwalk⟩ := Nodes.walk_ignoring hone tree (List.Subset.refl _)
    hfn hsound [separator] root (!tree.isNil) (Nat.le_refl _) hclosed s
  rw [walk, bind_eq_of_eq (x := loadAll root) rfl, bind_eq_of_eq hroot]
  simp only [Option.isSome_none, Bool.false_eq_true, if_false]
  rw [bind_eq_of_eq hwalk]
  rfl

end Ignoring

end Rapi.Walker
