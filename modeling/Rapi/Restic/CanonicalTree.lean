import Rapi.Restic.Node

/-!
# Trees are canonical

The nodes of a tree that is built by `Insert` are sorted by name, so the binary
search finds the place of every name.  A sorted tree is determined by the nodes in
it, whatever the order in which they were inserted.
-/

namespace Rapi.Restic

open Foundation List Option

/-! ## Binary search -/

/-- The first index from which on `f` holds, between `i` and `j`. -/
structure FirstFrom (f : Nat → Bool) (i j first : Nat) : Prop where
  lower : i ≤ first
  upper : first ≤ j
  before : ∀ k, i ≤ k → k < first → f k = false
  after : ∀ k, first ≤ k → k < j → f k

theorem firstFrom_self (f : Nat → Bool) (i : Nat) : FirstFrom f i i i where
  lower := Nat.le_refl i
  upper := Nat.le_refl i
  before _ _ _ := by omega
  after _ _ _ := by omega

theorem search_firstFrom {f : Nat → Bool} (hmono : ∀ a b, a ≤ b → f a → f b) {fuel i j : Nat}
    (hij : i ≤ j) (hfuel : j - i ≤ fuel) : FirstFrom f i j (search f fuel i j) := by
  induction fuel generalizing i j with
  | zero =>
    obtain rfl : i = j := by omega
    exact firstFrom_self f i
  | succ fuel ih =>
    rw [search]
    split
    · rename_i hlt
      dsimp only
      split
      · rename_i hmid
        have hfirst : FirstFrom f i ((i + j) / 2) _ := ih (by omega) (by omega)
        refine ⟨hfirst.lower, by have := hfirst.upper; omega, hfirst.before, ?_⟩
        intro k hk _
        by_cases hbelow : k < (i + j) / 2
        · exact hfirst.after k hk hbelow
        · exact hmono _ k (Nat.not_lt.mp hbelow) hmid
      · rename_i hmid
        have hfirst : FirstFrom f ((i + j) / 2 + 1) j _ := ih (by omega) (by omega)
        refine ⟨by have := hfirst.lower; omega, hfirst.upper, ?_, hfirst.after⟩
        intro k _ hk
        by_cases hbelow : (i + j) / 2 + 1 ≤ k
        · exact hfirst.before k hbelow hk
        · -- what does not hold in the middle does not hold before it
          rw [Bool.eq_false_iff]
          intro htrue
          exact hmid (hmono k _ (by omega) htrue)
    · obtain rfl : i = j := by omega
      exact firstFrom_self f i

/-! ## Sorted trees -/

namespace Tree

def empty : Tree := ⟨[]⟩

def Sorted (t : Tree) : Prop := t.nodes.Pairwise (·.name < ·.name)

theorem sorted_empty : empty.Sorted := List.Pairwise.nil

variable {t : Tree} {name : Bytes} {node : TreeNode}

theorem position_firstFrom (h : t.Sorted) (name : Bytes) :
    FirstFrom (fun i => t.nodes[i]?.all fun node => !decide (node.name < name)) 0
      t.nodes.length (t.position name) := by
  refine search_firstFrom ?_ (Nat.zero_le _) (Nat.le_refl _)
  intro a b hab ha
  simp only [Option.all_eq_true, Bool.not_eq_true', decide_eq_false_iff_not] at ha ⊢
  intro later hlater hlt
  obtain ⟨hb, rfl⟩ := List.getElem?_eq_some_iff.mp hlater
  have hlen : a < t.nodes.length := by omega
  refine ha t.nodes[a] (List.getElem?_eq_getElem hlen) ?_
  obtain heq | hless := Nat.eq_or_lt_of_le hab
  · simpa only [heq] using hlt
  · exact List.lt_trans (List.pairwise_iff_getElem.mp h a b hlen hb hless) hlt

theorem lt_of_mem_take (h : t.Sorted) (hnode : node ∈ t.nodes.take (t.position name)) :
    node.name < name := by
  obtain ⟨i, hi, rfl⟩ := mem_iff_getElem.mp hnode
  rw [length_take] at hi
  have hbefore := (position_firstFrom h name).before i (Nat.zero_le i) (by omega)
  rw [getElem_take]
  simpa [show i < t.nodes.length by omega] using hbefore

theorem not_lt_of_mem_drop (h : t.Sorted)
    (hnode : node ∈ t.nodes.drop (t.position name)) : ¬node.name < name := by
  obtain ⟨i, hi, rfl⟩ := mem_iff_getElem.mp hnode
  rw [length_drop] at hi
  have hafter := (position_firstFrom h name).after (t.position name + i)
    (Nat.le_add_right _ i) (by omega)
  rw [getElem_drop]
  simpa [show t.position name + i < t.nodes.length by omega] using hafter

theorem find_eq_some_iff (h : t.Sorted) :
    t.find name = some node ↔ node ∈ t.nodes ∧ node.name = name := by
  rw [find, filter_eq_some_iff]
  constructor
  · rintro ⟨hget, hname⟩
    exact ⟨mem_of_getElem? hget, of_decide_eq_true hname⟩
  · rintro ⟨hmem, rfl⟩
    refine ⟨?_, decide_eq_true rfl⟩
    rw [← List.take_append_drop (t.position node.name) t.nodes] at hmem
    obtain hbefore | hafter := List.mem_append.mp hmem
    · exact absurd (lt_of_mem_take h hbefore) (List.lt_irrefl node.name)
    · -- the first of the nodes that are not smaller is the node itself
      cases hdrop : t.nodes.drop (t.position node.name) with
      | nil => simp [hdrop] at hafter
      | cons first rest =>
        have hfirst : t.nodes[t.position node.name]? = some first := by
          rw [← head?_drop, hdrop, head?_cons]
        rw [hdrop] at hafter
        obtain rfl | hrest := mem_cons.mp hafter
        · exact hfirst
        · have hsorted := h.sublist (drop_sublist (t.position node.name) t.nodes)
          rw [hdrop, pairwise_cons] at hsorted
          refine absurd (hsorted.1 node hrest) (not_lt_of_mem_drop h ?_)
          rw [hdrop]
          exact mem_cons_self

theorem find_eq_none_iff (h : t.Sorted) :
    t.find name = none ↔ ∀ node ∈ t.nodes, node.name ≠ name := by
  constructor
  · intro hnone node hnode hname
    exact absurd ((find_eq_some_iff h).mpr ⟨hnode, hname⟩) (by simp [hnone])
  · intro hnot
    cases hfind : t.find name with
    | none => rfl
    | some node =>
      obtain ⟨hnode, hname⟩ := (find_eq_some_iff h).mp hfind
      exact absurd hname (hnot node hnode)

/-! ## Insertion -/

theorem insert_eq_none_iff : t.insert node = none ↔ t.find node.name ≠ none := by
  rw [insert]
  cases t.find node.name <;> simp

variable {t' : Tree}

theorem insert_eq_some (h : t.insert node = some t') :
    t.find node.name = none ∧ t'.nodes = t.nodes.take (t.position node.name) ++
      node :: t.nodes.drop (t.position node.name) := by
  rw [insert] at h
  split at h
  · cases h
  · rename_i hfind
    obtain rfl := some.inj h
    exact ⟨hfind, rfl⟩

theorem insert_perm (h : t.insert node = some t') : t'.nodes.Perm (node :: t.nodes) := by
  rw [(insert_eq_some h).2]
  refine perm_middle.trans (List.Perm.cons node ?_)
  rw [take_append_drop]

theorem Sorted.insert (hsorted : t.Sorted) (h : t.insert node = some t') : t'.Sorted := by
  obtain ⟨hfind, hnodes⟩ := insert_eq_some h
  have hother := (find_eq_none_iff hsorted).mp hfind
  have hgreater : ∀ n ∈ t.nodes.drop (t.position node.name), node.name < n.name := by
    intro n hn
    have hle : node.name ≤ n.name := List.not_lt.mp (not_lt_of_mem_drop hsorted hn)
    by_contra hlt
    exact hother n (List.mem_of_mem_drop hn) (List.le_antisymm (List.not_lt.mp hlt) hle)
  rw [Sorted, hnodes, pairwise_append, pairwise_cons]
  refine ⟨hsorted.sublist (take_sublist _ _), ⟨hgreater, hsorted.sublist (drop_sublist _ _)⟩, ?_⟩
  intro small hsmall large hlarge
  have hlt := lt_of_mem_take hsorted hsmall
  obtain rfl | hlarge := List.mem_cons.mp hlarge
  · exact hlt
  · exact List.lt_trans hlt (hgreater large hlarge)

/-- A call of `Insert`; a call that fails leaves the tree as it is. -/
def insertCall (t : Tree) (node : TreeNode) : Tree := (t.insert node).getD t

def insertAll (t : Tree) (nodes : List TreeNode) : Tree := nodes.foldl insertCall t

theorem Sorted.insertCall (h : t.Sorted) (node : TreeNode) : (t.insertCall node).Sorted := by
  rw [Tree.insertCall]
  cases hinsert : t.insert node with
  | none => exact h
  | some t' => exact h.insert hinsert

theorem Sorted.insertAll (h : t.Sorted) (nodes : List TreeNode) : (t.insertAll nodes).Sorted := by
  induction nodes generalizing t with
  | nil => exact h
  | cons node rest ih => exact ih (h.insertCall node)

theorem find_insertCall (h : t.Sorted) (node : TreeNode) (name : Bytes) :
    (t.insertCall node).find name =
      (t.find name).or (if node.name = name then some node else none) := by
  rw [insertCall]
  cases hinsert : t.insert node with
  | none =>
    rw [insert_eq_none_iff] at hinsert
    by_cases hname : node.name = name
    · obtain ⟨other, hother⟩ := ne_none_iff_exists'.mp hinsert
      rw [getD_none, ← hname, hother, some_or]
    · rw [getD_none, if_neg hname, or_none]
  | some t' =>
    have hmem : ∀ other, other ∈ t'.nodes ↔ other = node ∨ other ∈ t.nodes := by
      intro other
      rw [(insert_perm hinsert).mem_iff, mem_cons]
    have hnone := (insert_eq_some hinsert).1
    rw [getD_some]
    ext found
    rw [find_eq_some_iff (h.insert hinsert), hmem]
    by_cases hname : node.name = name
    · rw [← hname, hnone, none_or, if_pos rfl, some.injEq]
      constructor
      · rintro ⟨rfl | hfound, hsame⟩
        · rfl
        · exact absurd hsame ((find_eq_none_iff h).mp hnone found hfound)
      · rintro rfl
        exact ⟨Or.inl rfl, rfl⟩
    · rw [if_neg hname, or_none, find_eq_some_iff h]
      constructor
      · rintro ⟨rfl | hfound, hsame⟩
        · exact absurd hsame hname
        · exact ⟨hfound, hsame⟩
      · rintro ⟨hfound, hsame⟩
        exact ⟨Or.inr hfound, hsame⟩

theorem find_insertAll (h : t.Sorted) (nodes : List TreeNode) (name : Bytes) :
    (t.insertAll nodes).find name = (t.find name).or (nodes.find? (·.name = name)) := by
  induction nodes generalizing t with
  | nil => rw [insertAll, foldl_nil, find?_nil, or_none]
  | cons node rest ih =>
    rw [insertAll, foldl_cons, ← insertAll, ih (h.insertCall node),
      find_insertCall h, Option.or_assoc, find?_cons]
    by_cases hname : node.name = name
    · simp [hname]
    · simp [hname]

theorem insertAll_perm (h : t.Sorted) {nodes : List TreeNode}
    (hnames : ((t.nodes ++ nodes).map (·.name)).Nodup) :
    (t.insertAll nodes).nodes.Perm (t.nodes ++ nodes) := by
  induction nodes generalizing t with
  | nil => rw [insertAll, foldl_nil, append_nil]
  | cons node rest ih =>
    have hfresh : t.find node.name = none := by
      rw [find_eq_none_iff h]
      intro other hother hsame
      rw [map_append] at hnames
      exact (nodup_append.mp hnames).2.2 _ (mem_map_of_mem hother) _
        (mem_map_of_mem mem_cons_self) hsame
    obtain ⟨t', hinsert⟩ : ∃ t', t.insert node = some t' := by
      rw [← ne_none_iff_exists', ne_eq, insert_eq_none_iff, not_not]
      exact hfresh
    have hperm : (t'.nodes ++ rest).Perm (t.nodes ++ node :: rest) :=
      ((insert_perm hinsert).append_right rest).trans perm_middle.symm
    have hcall : t.insertCall node = t' := by rw [insertCall, hinsert, getD_some]
    rw [insertAll, foldl_cons, hcall]
    exact (ih (h.insert hinsert) ((hperm.map _).nodup_iff.mpr hnames)).trans hperm

theorem Sorted.eq_of_perm (h : t.Sorted) (h' : t'.Sorted)
    (hperm : t.nodes.Perm t'.nodes) : t = t' := by
  have hnodes : t.nodes = t'.nodes := by
    refine hperm.eq_of_pairwise ?_ h h'
    intro a b _ _ hab hba
    exact absurd hba (List.lt_asymm hab)
  cases t
  cases t'
  exact congrArg Tree.mk hnodes

/-- Trees that are built by `Insert` are sorted, `Insert` fails exactly for a name
that is there, `Find` finds what was inserted first, and the order in which nodes with
different names are inserted does not matter. -/
theorem insert_canonical :
    (∀ nodes : List TreeNode,
      (empty.insertAll nodes).Sorted ∧
      (∀ node, (empty.insertAll nodes).insert node = none ↔
        ∃ other ∈ (empty.insertAll nodes).nodes, other.name = node.name) ∧
      (∀ node, (empty.insertAll nodes).insert node = none →
        (empty.insertAll nodes).insertCall node = empty.insertAll nodes) ∧
      ∀ name, (empty.insertAll nodes).find name = nodes.find? (·.name = name)) ∧
    ∀ before nodes nodes' : List TreeNode,
      ((before ++ nodes).map (·.name)).Nodup → nodes.Perm nodes' →
      empty.insertAll (before ++ nodes) = empty.insertAll (before ++ nodes') := by
  refine ⟨fun nodes => ?_, fun before nodes nodes' hnames hperm => ?_⟩
  · have hsorted := sorted_empty.insertAll nodes
    refine ⟨hsorted, fun node => ?_, fun node hnone => ?_, fun name => ?_⟩
    · rw [insert_eq_none_iff, ne_eq, find_eq_none_iff hsorted]
      simp only [ne_eq, not_forall, not_not, exists_prop]
    · rw [insertCall, hnone, getD_none]
    · rw [find_insertAll sorted_empty]
      rfl
  · have hall : (before ++ nodes).Perm (before ++ nodes') := hperm.append_left before
    refine (sorted_empty.insertAll _).eq_of_perm (sorted_empty.insertAll _) ?_
    exact ((insertAll_perm sorted_empty hnames).trans hall).trans
      (insertAll_perm sorted_empty ((hall.map _).nodup_iff.mp hnames)).symm

def sampleNamed (name : String) : TreeNode := sampleFile (ascii name) 0 []

theorem insert_canonical_sample :
    empty.insertAll ([sampleNamed "b"] ++ [sampleNamed "a", sampleNamed "c"]) =
      empty.insertAll ([sampleNamed "b"] ++ [sampleNamed "c", sampleNamed "a"]) :=
  insert_canonical.2 _ _ _ (by decide) (by decide)

end Tree

end Rapi.Restic
