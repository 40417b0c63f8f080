import Rapi.Archiver.Tree

/-!
# Which targets reach the tree

Below the top level `Tree.Add` refuses to replace a path that is already set.
At the top level it has no such check, so a target with a single component
replaces another one when the naming loop stops at the same node.  The paths in
the tree are exactly the targets when this never happens.
-/

namespace Rapi.Archiver

open Foundation Foundation.FilePath List

/-! ## Nodes -/

namespace Nodes

theorem mem_names_iff (nodes : Nodes) (name : Bytes) :
    name ∈ nodes.names ↔ nodes.get? name ≠ none := by
  match nodes with
  | .nil => simp [names, get?]
  | .cons other tree rest =>
    by_cases hname : other = name
    · simp [names, get?, hname]
    · simp [names, get?, hname, Ne.symm hname, mem_names_iff rest name]

theorem get?_set (nodes : Nodes) (name other : Bytes) (tree : Tree) :
    (nodes.set name tree).get? other = if name = other then some tree else nodes.get? other := by
  match nodes with
  | .nil => simp [set, get?]
  | .cons first old rest =>
    by_cases hfirst : first = name
    · subst hfirst
      by_cases hother : first = other <;> simp [set, get?, hother]
    · by_cases hother : first = other
      · subst hother
        simp [set, get?, hfirst, Ne.symm hfirst]
      · simp [set, get?, hfirst, hother, get?_set rest name other tree]

theorem paths_set (nodes : Nodes) (name : Bytes) (tree : Tree) : ((nodes.set name tree).paths ++
      ((nodes.get? name).elim [] Tree.paths)).Perm (tree.paths ++ nodes.paths) := by
  match nodes with
  | .nil => simp [set, get?, paths]
  | .cons other old rest =>
    by_cases hname : other = name
    · subst hname
      simp only [set, get?, if_true, paths, Option.elim_some, append_assoc]
      exact List.Perm.append_left _ perm_append_comm
    · have hrest := paths_set rest name tree
      simp only [set, get?, hname, if_false, paths, append_assoc]
      exact (hrest.append_left _).trans (perm_append_comm_assoc old.paths tree.paths rest.paths)

end Nodes

namespace Tree

@[simp] theorem nodes_setNode (t : Tree) (name : Bytes) (node : Tree) :
    (t.setNode name node).nodes = t.nodes.set name node := by
  cases t
  rfl

@[simp] theorem path_setNode (t : Tree) (name : Bytes) (node : Tree) :
    (t.setNode name node).path = t.path := by
  cases t
  rfl

@[simp] theorem path_withPath (t : Tree) (path : Bytes) : (t.withPath path).path = path := by
  cases t
  rfl

@[simp] theorem path_withFileInfoPath (t : Tree) (p : Bytes) :
    (t.withFileInfoPath p).path = t.path := by
  cases t
  rfl

@[simp] theorem paths_withFileInfoPath (t : Tree) (p : Bytes) :
    (t.withFileInfoPath p).paths = t.paths := by
  cases t
  rfl

@[simp] theorem root_setNode (t : Tree) (name : Bytes) (node : Tree) :
    (t.setNode name node).root = t.root := by
  cases t
  rfl

@[simp] theorem root_withPath (t : Tree) (path : Bytes) : (t.withPath path).root = t.root := by
  cases t
  rfl

@[simp] theorem root_withFileInfoPath (t : Tree) (p : Bytes) :
    (t.withFileInfoPath p).root = t.root := by
  cases t
  rfl

variable {t t' : Tree} {path target root : Bytes}

theorem paths_withPath (hunset : t.path = []) (hpath : path ≠ []) :
    (t.withPath path).paths = path :: t.paths := by
  cases t
  simp_all [withPath, paths, Tree.path]

theorem length_paths_withPath (hset : t.path ≠ []) (hpath : path ≠ []) :
    (t.withPath path).paths.length = t.paths.length := by
  cases t
  simp_all [withPath, paths, Tree.path]

theorem paths_setNode (t : Tree) (name : Bytes) (node : Tree) : ((t.setNode name node).paths ++
      ((t.nodes.get? name).elim [] paths)).Perm (node.paths ++ t.paths) := by
  cases t with
  | mk nodes path fileInfoPath root =>
    have hnodes := (nodes.paths_set name node).append_left (if path = [] then [] else [path])
    simp only [setNode, Tree.nodes, paths, append_assoc]
    exact hnodes.trans (perm_append_comm_assoc _ _ _)

theorem paths_setNode_cons {name : Bytes} {node : Tree}
    (h : node.paths.Perm (target :: (t.nodes.get? name).elim [] paths)) :
    (t.setNode name node).paths.Perm (target :: t.paths) := by
  have hset := t.paths_setNode name node
  have hmove : (node.paths ++ t.paths).Perm
      ((target :: t.paths) ++ (t.nodes.get? name).elim [] paths) :=
    (h.append_right _).trans (perm_append_comm.cons target)
  exact (perm_append_right_iff _).mp (hset.trans hmove)

/-! ## Below the top level -/

theorem addBelow_eq_setNode {pc : List Bytes} (h : t.addBelow target root pc = .ok t') :
    ∃ name node, t' = t.setNode name node := by
  match pc with
  | [] => simp [addBelow] at h
  | [name] =>
    simp only [addBelow] at h
    split at h
    · cases h
      exact ⟨_, _, rfl⟩
    · split at h
      · cases h
      · cases h
        exact ⟨_, _, rfl⟩
  | name :: next :: rest =>
    simp only [addBelow] at h
    split at h
    · cases h
    · cases h
      exact ⟨_, _, rfl⟩

theorem addBelow_path {pc : List Bytes} (h : t.addBelow target root pc = .ok t') :
    t'.path = t.path := by
  obtain ⟨name, node, rfl⟩ := addBelow_eq_setNode h
  exact path_setNode t name node

theorem addBelow_root {pc : List Bytes} (h : t.addBelow target root pc = .ok t') :
    t'.root = t.root := by
  obtain ⟨name, node, rfl⟩ := addBelow_eq_setNode h
  exact root_setNode t name node

theorem addBelow_paths (htarget : target ≠ []) {pc : List Bytes}
    (h : t.addBelow target root pc = .ok t') : t'.paths.Perm (target :: t.paths) := by
  induction pc generalizing t t' root with
  | nil => simp [addBelow] at h
  | cons name pc ih =>
    cases pc with
    | nil =>
      simp only [addBelow] at h
      split at h
      · rename_i habsent
        cases h
        apply paths_setNode_cons
        simp [habsent, empty, withPath, paths, Nodes.paths, htarget]
      · rename_i tree hpresent
        split at h
        · cases h
        · rename_i hunset
          cases h
          apply paths_setNode_cons
          rw [paths_withPath (by simpa using hunset) htarget, hpresent]
          simp
    | cons next rest =>
      simp only [addBelow] at h
      split at h
      · cases h
      · rename_i tree hbelow
        cases h
        apply paths_setNode_cons
        have hrest := ih hbelow
        rw [paths_withFileInfoPath] at hrest
        cases hget : t.nodes.get? name with
        | none => simpa [hget, empty, paths, Nodes.paths] using hrest
        | some old => simpa [hget] using hrest

/-! ## The naming loop -/

/-- The root directory of the node with the name. -/
def Held (t : Tree) (name root : Bytes) : Prop := (t.nodes.get? name).map Tree.root = some root

/-- What a node has to be for `Add` to extend it: a new one, or the one with the name. -/
def Fits (t : Tree) (root : Bytes) (found : Bytes × Tree) : Prop :=
  found.2.root = root ∧
    (t.nodes.get? found.1 = none ∧ found.2 = .mk .nil [] [] root ∨
      t.nodes.get? found.1 = some found.2)

private theorem nameLoop_spec {origName : Bytes} {fuel i : Nat}
    (hfuel : i + fuel = t.nodes.names.length)
    (htaken : ∀ j < i, ∃ other, t.Held (numbered origName j) other ∧ ¬root = other) :
    let found := nameLoop t.nodes origName root fuel i
    Takes Eq t.Held root origName found.1 ∧ t.Fits root found := by
  have hfree : ∀ j, t.nodes.get? (numbered origName j) = none →
      ∀ other, t.Held (numbered origName j) other → root = other := by
    intro j habsent other hheld
    rw [Held, habsent] at hheld
    cases hheld
  induction fuel generalizing i with
  | zero =>
    have habsent : t.nodes.get? (numbered origName i) = none := by
      -- every name is a tried one, and the next one differs from all of them
      by_contra hpresent
      suffices hall : ∀ j < t.nodes.names.length + 1, numbered origName j ∈ t.nodes.names from
        not_all_taken (numbered_injective origName) hall
      rw [← hfuel]
      refine Nat.forall_lt_succ_right.mpr ⟨fun j hj => ?_, ?_⟩
      · obtain ⟨other, hheld, -⟩ := htaken j hj
        rw [Nodes.mem_names_iff]
        intro hnone
        rw [Held, hnone] at hheld
        cases hheld
      · exact (Nodes.mem_names_iff _ _).mpr hpresent
    exact ⟨⟨i, rfl, htaken, hfree i habsent⟩, rfl, Or.inl ⟨habsent, rfl⟩⟩
  | succ fuel ih =>
    simp only [nameLoop]
    split
    · rename_i habsent
      exact ⟨⟨i, rfl, htaken, hfree i habsent⟩, rfl, Or.inl ⟨habsent, rfl⟩⟩
    · rename_i other hpresent
      have hheld : t.Held (numbered origName i) other.root := by
        rw [Held, hpresent]
        rfl
      split
      · rename_i hroot
        refine ⟨⟨i, rfl, htaken, fun holder hholder => ?_⟩, hroot, Or.inr hpresent⟩
        rw [← hroot]
        exact Option.some.inj (hheld.symm.trans hholder)
      · rename_i hroot
        exact ih (by omega) (Nat.forall_lt_succ_right.mpr ⟨htaken, _, hheld, Ne.symm hroot⟩)

theorem slot_spec (t : Tree) (path origName : Bytes) :
    Takes Eq t.Held (rootDirectory path) origName (t.slot path origName).1 ∧
      t.Fits (rootDirectory path) (t.slot path origName) := nameLoop_spec (by omega) (by simp)

theorem Fits.paths_eq {found : Bytes × Tree} (h : t.Fits root found) :
    (t.nodes.get? found.1).elim [] paths = found.2.paths := by
  obtain ⟨-, ⟨habsent, hnew⟩ | hpresent⟩ := h
  · rw [habsent, hnew]
    rfl
  · rw [hpresent]
    rfl

/-! ## The top level -/

def HasLeaf (t : Tree) (name : Bytes) : Prop :=
  ∃ node, t.nodes.get? name = some node ∧ node.path ≠ []

theorem hasLeaf_setNode {name other : Bytes} {node : Tree} : (t.setNode name node).HasLeaf other ↔
      (name = other ∧ node.path ≠ []) ∨ (name ≠ other ∧ t.HasLeaf other) := by
  by_cases hname : name = other
  · simp [HasLeaf, Nodes.get?_set, hname]
  · simp [HasLeaf, Nodes.get?_set, hname]

theorem Fits.hasLeaf_iff {found : Bytes × Tree} (h : t.Fits root found) :
    t.HasLeaf found.1 ↔ found.2.path ≠ [] := by
  obtain ⟨-, ⟨habsent, hnew⟩ | hpresent⟩ := h
  · simp [HasLeaf, habsent, hnew, Tree.path]
  · simp [HasLeaf, hpresent]

/-- The root directory and the first component of a target. -/
def place (path : Bytes) : Bytes × Bytes :=
  (rootDirectory path, (pathComponents path false).headD [])

def Single (path : Bytes) : Prop := (pathComponents path false).length = 1

/-- The node to which `Add` gives a target. -/
def placed (t : Tree) (path : Bytes) : Bytes × Tree := t.slot path (place path).2

theorem add_cases (h : t.add path = .ok t') : path ≠ [] ∧
      (Single path ∧
          t' = t.setNode (t.placed path).1 ((t.placed path).2.withPath path) ∨
        ¬Single path ∧ ∃ root pc tree p, (t.placed path).2.addBelow path root pc = .ok tree ∧
          t' = t.setNode (t.placed path).1 (tree.withFileInfoPath p)) := by
  unfold add at h
  split at h
  · cases h
  · rename_i hpath
    refine ⟨hpath, ?_⟩
    unfold Single placed place
    split at h
    · cases h
    · rename_i origName hcomponents
      cases h
      rw [hcomponents]
      exact Or.inl ⟨rfl, rfl⟩
    · rename_i origName next rest hcomponents
      dsimp only at h
      split at h
      · cases h
      · rename_i tree hbelow
        cases h
        rw [hcomponents]
        exact Or.inr ⟨by simp, _, _, tree, _, hbelow, rfl⟩

theorem placed_fits (t : Tree) (path : Bytes) : t.Fits (rootDirectory path) (t.placed path) :=
  (t.slot_spec path _).2

theorem hasLeaf_add (h : t.add path = .ok t') (name : Bytes) :
    t'.HasLeaf name ↔ Single path ∧ (t.placed path).1 = name ∨ t.HasLeaf name := by
  obtain ⟨hpath, ⟨hsingle, rfl⟩ | ⟨hsingle, _, _, tree, _, hbelow, rfl⟩⟩ := add_cases h
  · rw [hasLeaf_setNode]
    by_cases hsame : (t.placed path).1 = name
    · simp [hsame, hpath, hsingle]
    · simp [hsame]
  · rw [hasLeaf_setNode, path_withFileInfoPath, addBelow_path hbelow,
      ← (t.placed_fits path).hasLeaf_iff]
    by_cases hsame : (t.placed path).1 = name
    · simp [hsame, hsingle]
    · simp [hsame]

theorem held_add (h : t.add path = .ok t') (name root : Bytes) : t'.Held name root ↔
      t.Held name root ∨ root = rootDirectory path ∧ name = (t.placed path).1 := by
  obtain ⟨⟨_, -, -, hshared⟩, hroot, -⟩ := t.slot_spec path (place path).2
  -- the node that is stored keeps the root of the one that was found
  obtain ⟨node, hnode, rfl⟩ : ∃ node : Tree, node.root = rootDirectory path ∧
      t' = t.setNode (t.placed path).1 node := by
    obtain ⟨-, ⟨-, rfl⟩ | ⟨-, _, _, tree, _, hbelow, rfl⟩⟩ := add_cases h
    · exact ⟨_, by rwa [root_withPath], rfl⟩
    · refine ⟨_, ?_, rfl⟩
      rwa [root_withFileInfoPath, addBelow_root hbelow]
  by_cases hname : (t.placed path).1 = name
  · subst hname
    have hheld : (t.setNode (t.placed path).1 node).Held (t.placed path).1 root ↔
        root = rootDirectory path := by
      simp [Held, Nodes.get?_set, hnode, eq_comm]
    rw [hheld]
    exact ⟨fun heq => Or.inr ⟨heq, rfl⟩,
      fun hor => hor.elim (fun hold => (hshared root hold).symm) And.left⟩
  · simp [Held, Nodes.get?_set, hname, Ne.symm hname]

/-- `Add` adds one path, unless it replaces the path of an existing node. -/
theorem paths_add (h : t.add path = .ok t') : (¬(Single path ∧ t.HasLeaf (t.placed path).1) ∧
        t'.paths.Perm (path :: t.paths)) ∨
      ((Single path ∧ t.HasLeaf (t.placed path).1) ∧
        t'.paths.length = t.paths.length) := by
  have hleaf := (t.placed_fits path).hasLeaf_iff
  have hold := (t.placed_fits path).paths_eq
  obtain ⟨hpath, ⟨hsingle, rfl⟩ | ⟨hsingle, _, _, tree, _, hbelow, rfl⟩⟩ := add_cases h
  · by_cases hset : (t.placed path).2.path = []
    · left
      refine ⟨fun hboth => hleaf.mp hboth.2 hset, ?_⟩
      apply paths_setNode_cons
      rw [hold, paths_withPath hset hpath]
    · right
      refine ⟨⟨hsingle, hleaf.mpr hset⟩, ?_⟩
      have hperm := (t.paths_setNode (t.placed path).1 ((t.placed path).2.withPath path)).length_eq
      rw [hold] at hperm
      simp only [length_append, length_paths_withPath hset hpath] at hperm
      omega
  · left
    refine ⟨fun hboth => hsingle hboth.1, ?_⟩
    apply paths_setNode_cons
    rw [hold, paths_withFileInfoPath]
    exact addBelow_paths hpath hbelow

/-! ## Sequences of targets -/

theorem addAll_cons_ok {paths : List Bytes} (h : t.addAll (path :: paths) = .ok t') :
    ∃ t₁, t.add path = .ok t₁ ∧ t₁.addAll paths = .ok t' := by
  simp only [addAll, foldlM_cons] at h
  cases hadd : t.add path with
  | error failure =>
    rw [hadd] at h
    cases h
  | ok t₁ =>
    rw [hadd] at h
    exact ⟨t₁, rfl, h⟩

theorem length_paths_addAll {targets : List Bytes} (h : t.addAll targets = .ok t') :
    t'.paths.length ≤ targets.length + t.paths.length := by
  induction targets generalizing t with
  | nil =>
    cases h
    simp
  | cons path targets ih =>
    obtain ⟨t₁, hadd, hrest⟩ := addAll_cons_ok h
    have hlength := ih hrest
    simp only [length_cons]
    rcases paths_add hadd with ⟨-, hperm⟩ | ⟨-, hsame⟩
    · have := hperm.length_eq
      simp only [length_cons] at this
      omega
    · omega

/-- A target with the places of those before it, the last one first. -/
structure Turn where
  earlier : List (Bytes × Bytes)
  path : Bytes

def turns (earlier : List (Bytes × Bytes)) : List Bytes → List Turn
  | [] => []
  | path :: paths => ⟨earlier, path⟩ :: turns (place path :: earlier) paths

/-- The target has a single component, and takes the name at the top level: the first
numbered one that is free or held by its own root directory. -/
def Turn.LeafName (turn : Turn) (name : Bytes) : Prop :=
  Single turn.path ∧
    Takes Eq (Holds Eq turn.earlier) (place turn.path).1 (place turn.path).2 name

private theorem paths_addAll_perm_iff {targets : List Bytes} {earlier : List (Bytes × Bytes)}
    (hheld : t.Held = Holds Eq earlier) (h : t.addAll targets = .ok t') :
    t'.paths.Perm (targets ++ t.paths) ↔ (turns earlier targets).Pairwise
          (fun first second => ∀ name, first.LeafName name → ¬second.LeafName name) ∧
        ∀ turn ∈ turns earlier targets, ∀ name, turn.LeafName name → ¬t.HasLeaf name := by
  induction targets generalizing t earlier with
  | nil =>
    cases h
    simp [turns]
  | cons path targets ih =>
    obtain ⟨t₁, hadd, hrest⟩ := addAll_cons_ok h
    have htakes := (t.slot_spec path (place path).2).1
    rw [hheld] at htakes
    have hleaf (name : Bytes) : (Turn.mk earlier path).LeafName name ↔
        Single path ∧ (t.placed path).1 = name := by
      refine and_congr_right' ⟨fun hname => htakes.unique hname, ?_⟩
      rintro rfl
      exact htakes
    have hheld₁ : t₁.Held = Holds Eq (place path :: earlier) := by
      funext name root
      rw [eq_iff_iff, held_add hadd, hheld]
      exact (htakes.holds_cons name root).symm
    simp only [turns, pairwise_cons, forall_mem_cons, hleaf]
    rcases paths_add hadd with ⟨hfree, hperm⟩ | ⟨⟨hsingle, hset⟩, hsame⟩
    · have hgoal : t'.paths.Perm (path :: targets ++ t.paths) ↔
          t'.paths.Perm (targets ++ t₁.paths) := by
        have hmove : (targets ++ t₁.paths).Perm (path :: targets ++ t.paths) :=
          (hperm.append_left targets).trans perm_middle
        exact ⟨fun hp => hp.trans hmove.symm, fun hp => hp.trans hmove⟩
      rw [hgoal, ih hheld₁ hrest]
      simp only [hasLeaf_add hadd, not_or]
      constructor
      · rintro ⟨hapart, hnew⟩
        refine ⟨⟨fun turn hturn name hname htaken => ?_, hapart⟩, ?_,
          fun turn hturn name hname => (hnew turn hturn name hname).2⟩
        · exact (hnew turn hturn name htaken).1 hname
        · rintro name ⟨hsingle, rfl⟩ hset
          exact hfree ⟨hsingle, hset⟩
      · rintro ⟨⟨hfirst, hapart⟩, -, hold⟩
        refine ⟨hapart, fun turn hturn name hname => ⟨fun hsame => ?_, ?_⟩⟩
        · exact hfirst turn hturn name hsame hname
        · exact hold turn hturn name hname
    · -- a path is lost: there are fewer paths than targets from here on
      constructor
      · intro hall
        have hlength := hall.length_eq
        have hbound := length_paths_addAll hrest
        simp only [cons_append, length_cons, length_append] at hlength
        omega
      · rintro ⟨-, hnone, -⟩
        exact absurd hset (hnone _ ⟨hsingle, rfl⟩)

/-- No two targets with a single component take the same name, where each target takes
the first of its numbered names that no target before it has taken for another root
directory. -/
theorem paths_perm_iff_names_apart {targets : List Bytes} {t : Tree}
    (h : empty.addAll targets = .ok t) :
    t.paths.Perm targets ↔
      (turns [] targets).Pairwise fun first second =>
        ∀ name, first.LeafName name → ¬second.LeafName name := by
  have hheld : empty.Held = Holds Eq [] := by
    funext name root
    exact eq_false fun h => by cases h
  have hempty : ∀ name, ¬ empty.HasLeaf name := by
    rintro name ⟨node, hnode, -⟩
    cases hnode
  have hpaths : empty.paths = [] := rfl
  simpa [hempty, hpaths] using paths_addAll_perm_iff hheld h

/-- The second target takes `a-1`, so that the last one keeps its own name. -/
theorem names_apart_example :
    let targets := [ascii "a", ascii "../a", ascii "b/c", ascii "../b", ascii "../a-2"]
    ∃ t, empty.addAll targets = .ok t ∧ t.paths.Perm targets ∧
      (turns [] targets).Pairwise fun first second =>
        ∀ name, first.LeafName name → ¬second.LeafName name :=
  ⟨_, rfl, by decide, (paths_perm_iff_names_apart rfl).mp (by decide)⟩

/--
The second target is stored as `foo-1` with the root `..`, and the third target
is found to have that name and that root.
-/
theorem paths_not_perm_targets :
    ¬ ∀ (targets : List Bytes) (t : Tree),
      targets.Nodup → (∀ target ∈ targets, clean target = target) →
      empty.addAll targets = .ok t → t.paths.Perm targets := by
  intro hall
  let targets := [ascii "foo", ascii "../foo", ascii "../foo-1"]
  have hpaths : (empty.addAll targets).map paths = .ok [ascii "foo", ascii "../foo-1"] := by decide
  cases hadd : empty.addAll targets with
  | error failure =>
    rw [hadd] at hpaths
    cases hpaths
  | ok t =>
    have hperm := hall targets t (by decide) (by decide) hadd
    have hlength := hperm.length_eq
    rw [hadd] at hpaths
    simp only [Except.map, Except.ok.injEq] at hpaths
    simp [hpaths, targets] at hlength

end Tree

end Rapi.Archiver
