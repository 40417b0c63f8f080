import Rapi.Restorer.TraverseTree

/-!
# A restore stays below its target

Whoever writes to a repository chooses the names of the nodes.  The visitor is
called for paths below the destination only, whatever the names are, and
whatever the error handler and the filter answer.
-/

namespace Rapi.Restorer

open Foundation Foundation.FilePath Restic

/-- A path that these names lead to from `dst`, and from the root of the
snapshot. -/
structure At (dst : Bytes) (names : List Bytes) (target location : Bytes) : Prop where
  target_eq : target = render true (elements dst ++ names)
  location_eq : location = render true names
  proper : ∀ name ∈ names, Proper name

/-- The path is `dst` followed by one or more proper elements, and the location
consists of the same elements. -/
def Below (dst : Bytes) (visit : Visit) : Prop :=
  ∃ names ≠ [], (∀ name ∈ names, Proper name) ∧
    visit.location = names.flatMap (separator :: ·) ∧
    visit.target = (if dst = [separator] then [] else dst) ++ visit.location

def Call.Contained (dst : Bytes) : Call → Prop
  | .enterDir visit => Below dst visit
  | .visitNode visit => Below dst visit
  | .leaveDir visit => Below dst visit
  | _ => True

/-! ## The parts of the loop -/

section Parts

variable {dst : Bytes}

theorem all_sanitizeError (location : Bytes) (err : Option Failure) :
    (TraverseM.sanitizeError location err).All (Call.Contained dst) := by
  unfold TraverseM.sanitizeError
  split
  · trivial
  · trivial
  · trivial
  · exact ⟨trivial, fun _ => trivial⟩

theorem all_callVisitor {call : TraverseM (Option Failure)}
    {f : Option Failure → TraverseM (Bool × Option Failure)} (hcall : call.All (Call.Contained dst))
    (hf : ∀ err, (f err).All (Call.Contained dst)) (condition : Bool) (location : Bytes) :
    (TraverseM.callVisitor condition call location >>= f).All (Call.Contained dst) := by
  cases condition with
  | false => exact hf none
  | true => exact (hcall.bind fun err => all_sanitizeError location err).bind hf

theorem all_orElse {next : TraverseM (Bool × Option Failure)} (h : next.All (Call.Contained dst))
    (hasRestored : Bool) (err : Option Failure) :
    (TraverseM.orElse hasRestored next err).All (Call.Contained dst) := by
  cases err with
  | none => exact h
  | some failure => trivial

theorem all_traverseDir (visitor : Callbacks) {visit : Visit} (hvisit : Below dst visit)
    {child : TraverseM (Bool × Option Failure)} (hchild : child.All (Call.Contained dst))
    {next : Bool → TraverseM (Bool × Option Failure)}
    (hnext : ∀ hasRestored, (next hasRestored).All (Call.Contained dst))
    (selected hasRestored : Bool) : (traverseDir visitor visit selected hasRestored child next).All
      (Call.Contained dst) := by
  have henter : (TraverseM.enterDir visit).All (Call.Contained dst) := ⟨hvisit, fun _ => trivial⟩
  have hleave : (TraverseM.leaveDir visit).All (Call.Contained dst) := ⟨hvisit, fun _ => trivial⟩
  refine all_callVisitor henter (fun err => ?_) _ _
  refine all_orElse (hchild.bind fun restored => ?_) _ err
  refine (all_sanitizeError _ _).bind fun err => all_orElse ?_ _ err
  exact all_callVisitor hleave (fun err => all_orElse (hnext _) _ err) _ _

end Parts

/-! ## The traversal -/

section Contained

variable {dst : Bytes} (hdst : isAbs dst)
include hdst

variable {names : List Bytes} {target location : Bytes}

theorem At.normal (h : At dst names target location) : Normal true (elements dst ++ names) :=
  (hdst ▸ clean_normal dst : Normal true (elements dst)).append h.proper

theorem At.proper_name {name : Bytes} (h : At dst names target location)
    (hname : base (join [separator] name) = name) (hne : target ≠ join target name) :
    Proper name := by
  have hnormal := h.normal hdst
  have habs : isAbs target := by rw [h.target_eq, isAbs_render hnormal]
  have hclean : clean target = target := by rw [h.target_eq, clean_render hnormal]
  exact proper_of_base_join habs hclean hname hne

theorem At.join {name : Bytes} (h : At dst names target location) (hname : Proper name) :
    At dst (names ++ [name]) (join target name) (join location name) := by
  have hnormal := h.normal hdst
  have hlocation : Normal true names := by
    simpa using (Normal.parents 0 (fun _ => rfl)).append h.proper
  have habs {elements : List Bytes} (h : Normal true elements) : render true elements ≠ [] :=
    ne_nil_of_isAbs (isAbs_render h)
  refine ⟨?_, ?_, ?_⟩
  · rw [h.target_eq, join_proper (habs hnormal) hname, isAbs_render hnormal,
      elements_render hnormal, List.append_assoc]
  · rw [h.location_eq, join_proper (habs hlocation) hname,
      isAbs_render hlocation, elements_render hlocation]
  · intro other hother
    rcases List.mem_append.mp hother with hother | hother
    · exact h.proper other hother
    · rw [List.mem_singleton.mp hother]
      exact hname

variable (hclean : clean dst = dst)
include hclean

theorem At.below {node : Node} (h : At dst names target location) (hne : names ≠ []) :
    Below dst ⟨node, target, location⟩ := by
  have hlocation : location = names.flatMap (separator :: ·) := by
    rw [h.location_eq, render_eq_flatMap hne]
  refine ⟨names, hne, h.proper, hlocation, ?_⟩
  rw [h.target_eq, render_append hdst hclean hne]
  exact congrArg _ hlocation.symm

end Contained

mutual

theorem Tree.contained {dst : Bytes} (hdst : isAbs dst)
    (hclean : clean dst = dst) (visitor : Callbacks) {names : List Bytes}
    {target location : Bytes} (h : At dst names target location) :
    ∀ tree : Tree, (tree.traverseTree visitor target location).All (Call.Contained dst)
  | .absent => trivial
  | .unloadable _ => ⟨trivial, fun _ => trivial⟩
  | .mk treeID nodes => by
      refine ⟨trivial, fun loaded => ?_⟩
      cases loaded with
      | some failure => exact ⟨trivial, fun _ => trivial⟩
      | none => exact Nodes.contained hdst hclean visitor h treeID nodes false

theorem Nodes.contained {dst : Bytes} (hdst : isAbs dst) (hclean : clean dst = dst)
    (visitor : Callbacks) {names : List Bytes} {target location : Bytes}
    (h : At dst names target location) (treeID : ID) : ∀ (nodes : Nodes) (hasRestored : Bool),
      (nodes.traverseNodes visitor target location treeID hasRestored).All (Call.Contained dst)
  | .nil, _ => trivial
  | .cons node subtree rest, hasRestored => by
      have ihrest := Nodes.contained hdst hclean visitor h treeID rest
      rw [Nodes.traverseNodes]
      dsimp only
      split
      · exact .perform trivial fun err => all_orElse (ihrest _) _ err
      rename_i hname
      rw [not_not] at hname
      rw [hname]
      split
      · exact .perform trivial fun err => all_orElse (ihrest _) _ err
      rename_i hpath
      split
      · exact ihrest _
      have hproper : Proper node.name := h.proper_name hdst hname fun hsame => hpath (.inl hsame)
      have hat := h.join hdst hproper
      have hbelow : Below dst ⟨node, join target node.name, join location node.name⟩ :=
        hat.below hdst hclean (by simp)
      refine .perform trivial fun answer => ?_
      split
      · split
        · trivial
        refine all_traverseDir visitor hbelow ?_ ihrest _ _
        split
        · exact Tree.contained hdst hclean visitor hat subtree
        · trivial
      · have hvisit : (TraverseM.visitNode ⟨node, join target node.name,
            join location node.name⟩).All (Call.Contained dst) := ⟨hbelow, fun _ => trivial⟩
        exact all_callVisitor hvisit (fun err => all_orElse (ihrest _) _ err) _ _

end

/-- Every path that the visitor is called with lies below the destination, for
all answers to the calls before. -/
theorem traverseTree_contained {dst : Bytes} (hdst : isAbs dst)
    (hclean : clean dst = dst) (visitor : Callbacks) (tree : Tree) :
    (tree.traverseTree visitor dst [separator]).All (Call.Contained dst) := by
  have hroot : At dst [] dst [separator] := by
    refine ⟨?_, rfl, by simp⟩
    rw [List.append_nil, ← hdst]
    exact hclean.symm
  exact Tree.contained hdst hclean visitor hroot tree

theorem traverseTree_contained_dotdot :
    let tree : Tree := .mk (.ofNat 1)
      (.cons ⟨ascii "..", .file, 0, 1, 0, 0, []⟩ .absent
        (.cons ⟨ascii "a", .file, 0, 1, 0, 0, []⟩ .absent .nil))
    isAbs (ascii "/dst") ∧ clean (ascii "/dst") = ascii "/dst" ∧
      (tree.traverseTree ⟨true, true⟩ (ascii "/dst") [separator]).All
        (Call.Contained (ascii "/dst")) :=
  ⟨by decide, by decide, traverseTree_contained (by decide) (by decide) _ _⟩

end Rapi.Restorer
