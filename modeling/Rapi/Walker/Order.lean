import Rapi.Walker.Walk

/-!
# The order of a walk

`Walk` sorts the nodes of each tree by name.  If the called function never ignores
a node, then it is called for every path below the root: the paths are the lists
of names that lead to a node, and the calls are in their lexicographic order.  So a
directory comes before what is below it, and everything below it before the next
name.
-/

namespace Rapi.Walker

open Foundation Foundation.FilePath Restic List

namespace Nodes

/-- Put a node before the first one whose name is not smaller. -/
def insertSorted : Nodes → TreeNode → Nodes → Nodes
  | nil, node, children => cons node children nil
  | cons first below rest, node, children =>
    if first.name < node.name then cons first below (rest.insertSorted node children)
    else cons node children (cons first below rest)

def sort : Nodes → Nodes
  | nil => nil
  | cons node children rest => rest.sort.insertSorted node children.sort

end Nodes

/-- `Walk`, with the nodes of each tree as they are stored. -/
def walkStored {m : Type → Type} [Monad m] {ε : Type} (loadTree : ID → m (Option ε))
    (walkFn : WalkFunc m ε) (root : ID) (tree : Nodes) (ignoreTrees : Finset ID) :
    m (Option (WalkError ε)) := walk loadTree walkFn root tree.sort ignoreTrees

/-- A node with the names on its path and the tree that it is in. -/
structure Entry where
  names : List Bytes
  tree : ID
  node : TreeNode

def Entry.under (name : Bytes) (entry : Entry) : Entry :=
  { entry with names := name :: entry.names }

/-- The unfolded tree has the entry. -/
inductive Nodes.At : Nodes → ID → Entry → Prop
  | here (node : TreeNode) (children rest : Nodes) (tree : ID) :
      At (.cons node children rest) tree ⟨[node.name], tree, node⟩
  | inside {node : TreeNode} {id : ID} {children : Nodes} {entry : Entry} (rest : Nodes)
      (tree : ID) : treeOf node = some id → At children id entry →
      At (.cons node children rest) tree (entry.under node.name)
  | next {rest : Nodes} {tree : ID} {entry : Entry} (node : TreeNode) (children : Nodes) :
      At rest tree entry → At (.cons node children rest) tree entry

namespace Nodes

def entries : Nodes → ID → List Entry
  | nil, _ => []
  | cons node children rest, tree =>
    let below := match treeOf node with
      | none => []
      | some id => (children.entries id).map (.under node.name)
    ⟨[node.name], tree, node⟩ :: (below ++ rest.entries tree)

variable {tree : ID} {entry : Entry}

theorem mem_entries {nodes : Nodes} : entry ∈ nodes.entries tree ↔ nodes.At tree entry := by
  induction nodes generalizing tree entry with
  | nil =>
    constructor
    · intro h
      cases h
    · intro h
      cases h
  | cons node children rest ihc ihr =>
    rw [entries, mem_cons, mem_append]
    constructor
    · rintro (rfl | hbelow | hnext)
      · exact .here node children rest tree
      · cases hid : treeOf node with
        | none =>
          rw [hid] at hbelow
          cases hbelow
        | some id =>
          rw [hid] at hbelow
          obtain ⟨entry, hentry, rfl⟩ := mem_map.mp hbelow
          exact .inside rest tree hid (ihc.mp hentry)
      · exact .next node children (ihr.mp hnext)
    · intro h
      cases h with
      | here => exact .inl rfl
      | inside _ _ hid hentry =>
        refine .inr (.inl ?_)
        rw [hid]
        exact mem_map_of_mem (ihc.mpr hentry)
      | next _ _ hentry => exact .inr (.inr (ihr.mpr hentry))

/-! ## Sorting -/

def names : Nodes → List Bytes
  | nil => []
  | cons node _ rest => node.name :: rest.names

def Distinct : Nodes → Prop
  | nil => True
  | cons node children rest => node.name ∉ rest.names ∧ children.Distinct ∧ rest.Distinct

def Sorted : Nodes → Prop
  | nil => True
  | cons node children rest =>
    (∀ name ∈ rest.names, node.name < name) ∧ children.Sorted ∧ rest.Sorted

variable {node : TreeNode} {children nodes : Nodes}

theorem mem_names_insertSorted {name : Bytes} : name ∈ (nodes.insertSorted node children).names ↔
      name = node.name ∨ name ∈ nodes.names := by
  induction nodes with
  | nil => exact mem_cons
  | cons first below rest _ ih =>
    rw [insertSorted]
    split
    · rw [names, names, mem_cons, mem_cons, ih]
      exact or_left_comm
    · rw [names, mem_cons]

theorem mem_names_sort {name : Bytes} (nodes : Nodes) :
    name ∈ nodes.sort.names ↔ name ∈ nodes.names := by
  induction nodes with
  | nil => exact Iff.rfl
  | cons node children rest _ ih => rw [sort, mem_names_insertSorted, names, mem_cons, ih]

theorem Sorted.insertSorted (hnodes : nodes.Sorted) (hchildren : children.Sorted)
    (hname : node.name ∉ nodes.names) : (nodes.insertSorted node children).Sorted := by
  induction nodes with
  | nil => exact ⟨fun _ h => absurd h not_mem_nil, hchildren, trivial⟩
  | cons first below rest _ ih =>
    obtain ⟨hfirst, hbelow, hrest⟩ := hnodes
    rw [names, mem_cons, not_or] at hname
    rw [Nodes.insertSorted]
    split
    · rename_i hlt
      refine ⟨?_, hbelow, ih hrest hname.2⟩
      intro name hmem
      obtain rfl | hmem := mem_names_insertSorted.mp hmem
      · exact hlt
      · exact hfirst name hmem
    · rename_i hnot
      have hlt : node.name < first.name := by
        refine Decidable.byContradiction fun hge => hname.1 ?_
        exact List.le_antisymm hnot hge
      refine ⟨?_, hchildren, hfirst, hbelow, hrest⟩
      intro name hmem
      rw [names, mem_cons] at hmem
      obtain rfl | hmem := hmem
      · exact hlt
      · exact List.lt_trans hlt (hfirst name hmem)

theorem sort_sorted (h : nodes.Distinct) : nodes.sort.Sorted := by
  induction nodes with
  | nil => trivial
  | cons node children rest ihc ihr =>
    obtain ⟨hname, hchildren, hrest⟩ := h
    refine (ihr hrest).insertSorted (ihc hchildren) ?_
    rw [mem_names_sort]
    exact hname

theorem at_insertSorted : (nodes.insertSorted node children).At tree entry ↔
      (cons node children nodes).At tree entry := by
  induction nodes with
  | nil => exact Iff.rfl
  | cons first below rest _ ih =>
    rw [insertSorted]
    split
    · constructor
      · intro h
        cases h with
        | here => exact .next node children (.here first below rest tree)
        | inside _ _ hid hentry => exact .next node children (.inside rest tree hid hentry)
        | next _ _ hentry =>
          cases ih.mp hentry with
          | here => exact .here node children _ tree
          | inside _ _ hid hinside => exact .inside _ tree hid hinside
          | next _ _ hnext => exact .next node children (.next first below hnext)
      · intro h
        cases h with
        | here => exact .next first below (ih.mpr (.here node children rest tree))
        | inside _ _ hid hentry => exact .next first below (ih.mpr (.inside rest tree hid hentry))
        | next _ _ hentry =>
          cases hentry with
          | here => exact .here first below _ tree
          | inside _ _ hid hentry => exact .inside _ tree hid hentry
          | next _ _ hentry => exact .next first below (ih.mpr (.next node children hentry))
    · exact Iff.rfl

theorem at_sort (nodes : Nodes) : nodes.sort.At tree entry ↔ nodes.At tree entry := by
  induction nodes generalizing tree entry with
  | nil => exact Iff.rfl
  | cons node children rest ihc ihr =>
    rw [sort, at_insertSorted]
    constructor
    · intro h
      cases h with
      | here => exact .here node children rest tree
      | inside _ _ hid hentry => exact .inside rest tree hid (ihc.mp hentry)
      | next _ _ hentry => exact .next node children (ihr.mp hentry)
    · intro h
      cases h with
      | here => exact .here node children.sort rest.sort tree
      | inside _ _ hid hentry => exact .inside _ tree hid (ihc.mpr hentry)
      | next _ _ hentry => exact .next node _ (ihr.mpr hentry)

theorem Sound.insertSorted (h : (cons node children nodes).Sound) :
    (nodes.insertSorted node children).Sound := by
  induction nodes with
  | nil => exact h
  | cons first below rest _ ih =>
    obtain ⟨htype, hdir, hleaf, hchildren, htype', hdir', hleaf', hbelow, hrest⟩ := h
    rw [Nodes.insertSorted]
    split
    · exact ⟨htype', hdir', hleaf', hbelow, ih ⟨htype, hdir, hleaf, hchildren, hrest⟩⟩
    · exact ⟨htype, hdir, hleaf, hchildren, htype', hdir', hleaf', hbelow, hrest⟩

theorem Sound.sort (h : nodes.Sound) : nodes.sort.Sound := by
  induction nodes with
  | nil => trivial
  | cons node children rest ihc ihr =>
    obtain ⟨htype, hdir, hleaf, hchildren, hrest⟩ := h
    refine Sound.insertSorted ⟨htype, hdir, ?_, ihc hchildren, ihr hrest⟩
    intro hnode
    rw [hleaf hnode, Nodes.sort]

/-! ## The order of the entries -/

theorem At.names_cons (h : nodes.At tree entry) :
    ∃ name ∈ nodes.names, ∃ below, entry.names = name :: below := by
  induction h with
  | here node children rest tree => exact ⟨node.name, mem_cons_self, [], rfl⟩
  | @inside node _ _ entry rest tree _ _ _ => exact ⟨node.name, mem_cons_self, entry.names, rfl⟩
  | next node children _ ih =>
    obtain ⟨name, hname, below, heq⟩ := ih
    exact ⟨name, mem_cons_of_mem _ hname, below, heq⟩

/-- The entry comes earlier: its path is the beginning of the other one, or smaller
at the first name where they differ. -/
def Precedes (first second : Entry) : Prop := List.Lex (· < ·) first.names second.names

theorem entries_pairwise (h : nodes.Sorted) (tree : ID) :
    (nodes.entries tree).Pairwise Precedes := by
  induction nodes generalizing tree with
  | nil => exact .nil
  | cons node children rest ihc ihr =>
    obtain ⟨hsmaller, hchildren, hrest⟩ := h
    have hnext : ∀ below, ∀ entry ∈ rest.entries tree,
        List.Lex (· < ·) (node.name :: below) entry.names := by
      intro below entry hentry
      obtain ⟨name, hname, others, heq⟩ := (mem_entries.mp hentry).names_cons
      rw [heq]
      exact .rel (hsmaller name hname)
    rw [entries, pairwise_cons, pairwise_append]
    cases treeOf node with
    | none =>
      refine ⟨?_, .nil, ihr hrest tree, fun _ h => absurd h not_mem_nil⟩
      intro entry hentry
      exact hnext [] entry hentry
    | some id =>
      refine ⟨?_, ?_, ihr hrest tree, ?_⟩
      · intro entry hentry
        obtain hbelow | hrest := mem_append.mp hentry
        · obtain ⟨entry, hinside, rfl⟩ := mem_map.mp hbelow
          obtain ⟨name, -, others, heq⟩ := (mem_entries.mp hinside).names_cons
          refine .cons ?_
          rw [heq]
          exact .nil
        · exact hnext [] entry hrest
      · exact List.Pairwise.map _ (fun _ _ h => .cons h) (ihc hchildren id)
      · intro entry hbelow other hother
        obtain ⟨entry, -, rfl⟩ := mem_map.mp hbelow
        exact hnext entry.names other hother

end Nodes

/-! ## The calls -/

structure Call where
  parentTreeID : ID
  path : Bytes
  node : Option TreeNode

section Calls

variable {σ ε : Type} (visit : σ → Call → σ)

/-- A function that only changes a state of its own. -/
def visiting : WalkFunc (StateM σ) ε :=
  fun parentTreeID p node _ s => ((false, none), visit s ⟨parentTreeID, p, node⟩)

def Entry.call (pre : Bytes) (entry : Entry) : Call :=
  ⟨entry.tree, entry.names.foldl join pre, some entry.node⟩

theorem Nodes.walk_visiting (nodes : Nodes) (hsound : nodes.Sound) (pre : Bytes)
    (tree : ID) (allNodesIgnored : Bool) (s : σ) :
    nodes.walk loadAll (visiting (ε := ε) visit) pre tree allNodesIgnored ∅ s =
      ((.ok (allNodesIgnored && nodes.isNil), ∅),
        ((nodes.entries tree).map (Entry.call pre)).foldl visit s) := by
  induction nodes generalizing pre tree allNodesIgnored s with
  | nil =>
    rw [isNil, Bool.and_true]
    rfl
  | cons node children rest ihc ihr =>
    obtain ⟨htype, hdir, hleaf, hchildren, hrest⟩ := hsound
    rw [walk, if_neg htype, entries]
    by_cases hnode : node.type = .dir
    · obtain ⟨id, hid⟩ := Option.ne_none_iff_exists'.mp (hdir hnode)
      have htree : treeOf node = some id := by rw [treeOf, if_pos hnode, hid]
      have hbelow : ((children.entries id).map (Entry.under node.name)).map
          (Entry.call pre) = (children.entries id).map (Entry.call (join pre node.name)) := by
        rw [map_map]
        rfl
      rw [if_neg (not_not_intro hnode)]
      simp only [hid, htree, Finset.notMem_empty, if_false]
      rw [bind_eq_of_eq (x := loadAll id) rfl,
        bind_eq_of_eq (x := visiting visit tree (join pre node.name) (some node) none) rfl]
      simp only [Option.isSome_none, Bool.false_eq_true, if_false]
      -- neither the directory nor its tree is ignored
      have hkept : ignoreIf false id ∅ = ∅ := rfl
      rw [hkept, bind_eq_of_eq (ihc hchildren _ _ _ _)]
      dsimp only
      rw [Bool.not_and_self, Bool.and_false, hkept, ihr hrest, map_cons,
        map_append, hbelow, foldl_cons, foldl_append, isNil, Bool.and_false, Bool.false_and]
      rfl
    · have htree : treeOf node = none := if_neg hnode
      rw [if_pos hnode, htree,
        bind_eq_of_eq (x := visiting visit tree (join pre node.name) (some node) none) rfl]
      dsimp only
      rw [ihr hrest, Bool.and_false, Bool.false_and, isNil, Bool.and_false]
      rfl

/-- The function is called for the root, and then for every path in order. -/
theorem walk_calls_every_path {tree : Nodes} (hsound : tree.Sound)
    (hdistinct : tree.Distinct) (root : ID) (s : σ) :
    ∃ entries : List Entry,
      walkStored loadAll (visiting (ε := ε) visit) root tree ∅ s =
        (none, (entries.map (Entry.call [separator])).foldl visit
          (visit s ⟨root, [separator], none⟩)) ∧
      entries.Pairwise Nodes.Precedes ∧
      ∀ entry, entry ∈ entries ↔ tree.At root entry := by
  refine ⟨tree.sort.entries root, ?_, Nodes.entries_pairwise (Nodes.sort_sorted hdistinct) root,
    fun entry => Nodes.mem_entries.trans (Nodes.at_sort tree)⟩
  rw [walkStored, walk, bind_eq_of_eq (x := loadAll root) rfl,
    bind_eq_of_eq (x := visiting visit root [separator] none none) rfl]
  simp only [Option.isSome_none, Bool.false_eq_true, if_false]
  rw [bind_eq_of_eq (Nodes.walk_visiting visit tree.sort hsound.sort _ _ _ _)]
  rfl

end Calls

def sharedTree : Nodes :=
  .cons (sampleDir (ascii "b") (.ofNat 1)) (.cons (sampleFile (ascii "f") 0 []) .nil .nil)
    (.cons (sampleDir (ascii "a") (.ofNat 1)) (.cons (sampleFile (ascii "f") 0 []) .nil .nil) .nil)

theorem walk_calls_every_path_sample :
    ∃ entries : List Entry,
      walkStored loadAll (visiting (ε := Unit) fun log call => log ++ [call])
        (.ofNat 2) sharedTree ∅ [] = (none, (entries.map (Entry.call [separator])).foldl
            (fun log call => log ++ [call]) [⟨.ofNat 2, [separator], none⟩]) ∧
      ⟨[ascii "a", ascii "f"], .ofNat 1, sampleFile (ascii "f") 0 []⟩ ∈ entries ∧
      ⟨[ascii "b", ascii "f"], .ofNat 1, sampleFile (ascii "f") 0 []⟩ ∈ entries := by
  have hsound : sharedTree.Sound := by simp [sharedTree, Nodes.Sound, sampleFile, sampleDir]
  have hdistinct : sharedTree.Distinct := by
    simp [sharedTree, Nodes.Distinct, Nodes.names, sampleFile, sampleDir, ascii]
  obtain ⟨entries, hwalk, -, hmem⟩ := walk_calls_every_path (ε := Unit)
    (fun (log : List Call) call => log ++ [call]) hsound hdistinct (.ofNat 2) []
  refine ⟨entries, hwalk, (hmem _).mpr ?_, (hmem _).mpr ?_⟩
  · exact .next _ _ (.inside _ _ rfl (.here _ _ _ _))
  · exact .inside _ _ rfl (.here _ _ _ _)

end Rapi.Walker
