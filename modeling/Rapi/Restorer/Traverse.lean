import Rapi.Fs.PathPrefix
import Rapi.Restic.Node
import Rapi.Restorer.FileRestorer

/-!
# Traversing a snapshot tree

`traverseTree` walks over a tree of the repository and calls a visitor for the
selected items, with the path in the file system and the location in the
snapshot.  The tree that a node refers to is part of the model, with a case for
a missing reference and one for a tree that cannot be loaded.  The visitor works
on a state of any type.
-/

namespace Rapi.Restorer

open Foundation Foundation.FilePath Restic List

mutual

inductive Tree
  | absent
  | unloadable (failure : Failure)
  | mk (treeID : ID) (nodes : Nodes)

inductive Nodes
  | nil
  | cons (node : Node) (subtree : Tree) (rest : Nodes)

end

def Tree.isAbsent : Tree → Bool
  | .absent => true
  | _ => false

structure TreeRestorer where
  error : Bytes → Failure → Option Failure
  selectFilter : Bytes → Bytes → Node → Bool × Bool

section Traverse

variable {σ : Type}

abbrev Callback (σ : Type) := Node → Bytes → Bytes → σ → Option Failure × σ

structure Visitor (σ : Type) where
  enterDir : Option (Callback σ)
  visitNode : Callback σ
  leaveDir : Option (Callback σ)

structure Traversal (σ : Type) where
  hasRestored : Bool
  err : Option Failure
  state : σ

/-- Context errors are permanent. -/
def TreeRestorer.sanitizeError (res : TreeRestorer) (nodeLocation : Bytes) :
    Option Failure → Option Failure
  | none => none
  | some .canceled => some .canceled
  | some .deadlineExceeded => some .deadlineExceeded
  | some failure => res.error nodeLocation failure

/-- Call a callback that may be missing, if the condition holds. -/
def callIf (condition : Bool) (callback : Option (Callback σ)) (node : Node)
    (target location : Bytes) (s : σ) : Option Failure × σ :=
  match condition, callback with
  | true, some f => f node target location s
  | _, _ => (none, s)

mutual

def Tree.traverse (res : TreeRestorer) (visitor : Visitor σ)
    (target location : Bytes) : Tree → σ → Traversal σ
  | .absent, s => ⟨false, none, s⟩
  | .unloadable failure, s => ⟨false, res.error location failure, s⟩
  | .mk treeID nodes, s => nodes.traverse res visitor target location treeID false s

def Nodes.traverse (res : TreeRestorer) (visitor : Visitor σ)
    (target location : Bytes) (treeID : ID) : Nodes → Bool → σ → Traversal σ
  | .nil, hasRestored, s => ⟨hasRestored, none, s⟩
  | .cons node subtree rest, hasRestored, s =>
    let nodeName := base (join [separator] node.name)
    let nodeTarget := join target nodeName
    let nodeLocation := join location nodeName
    if nodeName ≠ node.name then
      match res.error location (.invalidChildName node.name) with
      | some failure => ⟨hasRestored, some failure, s⟩
      | none => rest.traverse res visitor target location treeID hasRestored s
    else if target = nodeTarget ∨
        Fs.hasPathPrefix target nodeTarget = false then
      match res.error nodeLocation .invalidPath with
      | some failure => ⟨hasRestored, some failure, s⟩
      | none => rest.traverse res visitor target location treeID hasRestored s
    else if node.type = .socket then
      rest.traverse res visitor target location treeID hasRestored s
    else
      let selected := (res.selectFilter nodeLocation nodeTarget node).1
      let childMayBeSelected := (res.selectFilter nodeLocation nodeTarget node).2
      let hasRestored := hasRestored || selected
      if node.type = .dir then
        if subtree.isAbsent then ⟨hasRestored, some (.dirWithoutSubtree treeID), s⟩
        else
          let entered := callIf selected visitor.enterDir node nodeTarget nodeLocation s
          match res.sanitizeError nodeLocation entered.1 with
          | some failure => ⟨hasRestored, some failure, entered.2⟩
          | none =>
            let child :=
              if childMayBeSelected then
                subtree.traverse res visitor nodeTarget nodeLocation entered.2
              else ⟨false, none, entered.2⟩
            match res.sanitizeError nodeLocation child.err with
            | some failure => ⟨hasRestored, some failure, child.state⟩
            | none =>
              let left := callIf (selected || child.hasRestored)
                visitor.leaveDir node nodeTarget nodeLocation child.state
              match res.sanitizeError nodeLocation left.1 with
              | some failure => ⟨hasRestored || child.hasRestored, some failure, left.2⟩
              | none =>
                rest.traverse res visitor target location treeID
                  (hasRestored || child.hasRestored) left.2
      else
        let visited := callIf selected (some visitor.visitNode) node
          nodeTarget nodeLocation s
        match res.sanitizeError nodeLocation visited.1 with
        | some failure => ⟨hasRestored, some failure, visited.2⟩
        | none => rest.traverse res visitor target location treeID hasRestored visited.2

end

end Traverse

/-! ## Selecting everything -/

structure Visit where
  node : Node
  target : Bytes
  location : Bytes
  deriving DecidableEq

inductive Event
  | enterDir (visit : Visit)
  | visitNode (visit : Visit)
  | leaveDir (visit : Visit)

mutual

/-- The calls of the visitor when everything is selected. -/
def Tree.events (target location : Bytes) : Tree → List Event
  | .absent => []
  | .unloadable _ => []
  | .mk _ nodes => nodes.events target location

def Nodes.events (target location : Bytes) : Nodes → List Event
  | .nil => []
  | .cons node subtree rest =>
    let visit : Visit := ⟨node, join target node.name, join location node.name⟩
    let first :=
      if node.type = .socket then []
      else if node.type = .dir then
        .enterDir visit :: (subtree.events visit.target visit.location ++ [.leaveDir visit])
      else [.visitNode visit]
    first ++ rest.events target location

end

/-- The restorer of `NewRestorer`: no filter, and every error aborts. -/
def newRestorer : TreeRestorer where
  error _ failure := some failure
  selectFilter _ _ _ := (true, true)

section Run

variable {σ : Type} (visitor : Visitor σ)

def runEvent (s : σ) : Event → Option Failure × σ
  | .enterDir v => callIf true visitor.enterDir v.node v.target v.location s
  | .visitNode v => visitor.visitNode v.node v.target v.location s
  | .leaveDir v => callIf true visitor.leaveDir v.node v.target v.location s

/-- The state after all calls, if none of them fails. -/
def runEvents : List Event → σ → Option σ
  | [], s => some s
  | event :: events, s =>
    match runEvent visitor s event with
    | (some _, _) => none
    | (none, s) => runEvents events s

theorem runEvents_append (first second : List Event) (s : σ) :
    runEvents visitor (first ++ second) s =
      (runEvents visitor first s).bind (runEvents visitor second) := by
  induction first generalizing s with
  | nil => rfl
  | cons event first ih =>
    simp only [cons_append, runEvents]
    split
    · rfl
    · exact ih _

theorem runEvents_cons_of_none (event : Event) {s : σ}
    (h : (runEvent visitor s event).1 = none) (events : List Event) :
    runEvents visitor (event :: events) s =
      runEvents visitor events (runEvent visitor s event).2 := by
  rw [runEvents]
  split
  · rename_i hfail
    rw [hfail] at h
    cases h
  · rename_i hok
    rw [hok]

theorem newRestorer_sanitizeError {location : Bytes} {failure : Option Failure} :
    newRestorer.sanitizeError location failure = failure := by
  cases failure with
  | none => rfl
  | some failure => cases failure <;> rfl

mutual

theorem Tree.runEvents_of_traverse (target location : Bytes) : ∀ (tree : Tree) (s : σ),
      (tree.traverse newRestorer visitor target location s).err = none →
      runEvents visitor (tree.events target location) s =
        some (tree.traverse newRestorer visitor target location s).state
  | .absent, s, _ => rfl
  | .unloadable failure, s, h => by cases h
  | .mk treeID nodes, s, h => Nodes.runEvents_of_traverse target location treeID nodes false s h

theorem Nodes.runEvents_of_traverse (target location : Bytes) (treeID : ID) :
    ∀ (nodes : Nodes) (hasRestored : Bool) (s : σ),
      (nodes.traverse newRestorer visitor target location treeID hasRestored s).err = none →
      runEvents visitor (nodes.events target location) s =
        some (nodes.traverse newRestorer visitor target location treeID hasRestored s).state
  | .nil, _, _, _ => rfl
  | .cons node subtree rest, hasRestored, s, h => by
      have ihrest := Nodes.runEvents_of_traverse target location treeID rest
      have ihtree := fun target location => Tree.runEvents_of_traverse target location subtree
      rw [Nodes.traverse] at h ⊢
      dsimp only at h ⊢
      by_cases hname : base (join [separator] node.name) = node.name
      · have hselect : newRestorer.selectFilter (join location node.name)
            (join target node.name) node = (true, true) := rfl
        simp only [hname, ne_eq, not_true_eq_false, if_false, if_true,
          newRestorer_sanitizeError, hselect, Bool.true_or] at h ⊢
        by_cases hpath : target = join target node.name ∨
            Fs.hasPathPrefix target (join target node.name) = false
        · simp [hpath, newRestorer] at h
        simp only [hpath, if_false] at h ⊢
        rw [Nodes.events]
        by_cases hsocket : node.type = .socket
        · simp only [hsocket, if_true] at h ⊢
          exact ihrest _ _ h
        simp only [hsocket, if_false] at h ⊢
        by_cases hdir : node.type = .dir
        · simp only [hdir, if_true] at h ⊢
          by_cases habsent : subtree.isAbsent
          · simp [habsent] at h
          simp only [habsent, Bool.false_eq_true, if_false] at h ⊢
          split at h
          · cases h
          rename_i hentered
          split at h
          · cases h
          rename_i hchild
          split at h
          · cases h
          rename_i hleft
          let visit : Visit := ⟨node, join target node.name, join location node.name⟩
          rw [cons_append, runEvents_cons_of_none visitor (.enterDir visit) hentered,
            append_assoc, runEvents_append, runEvent,
            ihtree _ _ _ hchild, Option.bind_some, singleton_append,
            runEvents_cons_of_none visitor (.leaveDir visit) hleft]
          exact ihrest _ _ h
        · simp only [hdir, if_false] at h ⊢
          split at h
          · cases h
          rename_i hvisited
          rw [singleton_append, runEvents_cons_of_none visitor (.visitNode
              ⟨node, join target node.name, join location node.name⟩) hvisited]
          exact ihrest _ _ h
      · simp [hname, newRestorer] at h

end

end Run

/-! ## Where the nodes are restored -/

mutual

/-- Every name is proper and occurs once in its directory. -/
def Tree.Named : Tree → Prop
  | .absent => True
  | .unloadable _ => True
  | .mk _ nodes => nodes.Named

def Nodes.Named : Nodes → Prop
  | .nil => True
  | .cons node subtree rest =>
    Proper node.name ∧ node.name ∉ rest.names ∧ subtree.Named ∧ rest.Named

def Nodes.names : Nodes → List Bytes
  | .nil => []
  | .cons node _ rest => node.name :: rest.names

end

mutual

/-- The visited nodes with the names that lead to them. -/
def Tree.visited (names : List Bytes) : Tree → List (Node × List Bytes)
  | .absent => []
  | .unloadable _ => []
  | .mk _ nodes => nodes.visited names

def Nodes.visited (names : List Bytes) : Nodes → List (Node × List Bytes)
  | .nil => []
  | .cons node subtree rest =>
    let first :=
      if node.type = .socket then []
      else if node.type = .dir then subtree.visited (names ++ [node.name])
      else [(node, names ++ [node.name])]
    first ++ rest.visited names

end

def Event.visit? : Event → Option Visit
  | .visitNode visit => some visit
  | _ => none

def visits (dst : Bytes) (tree : Tree) : List Visit :=
  (tree.events dst [separator]).filterMap Event.visit?

/-- The visit of a node that is reached through these names below `dst`. -/
def visitOf (dst : Bytes) (reached : Node × List Bytes) : Visit :=
  ⟨reached.1, render true (elements dst ++ reached.2), render true reached.2⟩

section Paths

variable {dst : Bytes}

mutual

private theorem Tree.visit_events {target location : Bytes} {names : List Bytes}
    (htarget : isAbs target) (hlocation : isAbs location)
    (hsame : elements target = elements dst ++ names) (hnames : elements location = names) :
    ∀ tree : Tree, tree.Named → (tree.events target location).filterMap Event.visit? =
        (tree.visited names).map (visitOf dst)
  | .absent, _ => rfl
  | .unloadable _, _ => rfl
  | .mk _ nodes, h => Nodes.visit_events htarget hlocation hsame hnames nodes h

private theorem Nodes.visit_events {target location : Bytes} {names : List Bytes}
    (htarget : isAbs target) (hlocation : isAbs location)
    (hsame : elements target = elements dst ++ names) (hnames : elements location = names) :
    ∀ nodes : Nodes, nodes.Named → (nodes.events target location).filterMap Event.visit? =
        (nodes.visited names).map (visitOf dst)
  | .nil, _ => rfl
  | .cons node subtree rest, ⟨hproper, _, hsubtree, hrest⟩ => by
      have ihrest := Nodes.visit_events htarget hlocation hsame hnames rest hrest
      have ihtree := Tree.visit_events (isAbs_join htarget hproper) (isAbs_join hlocation hproper)
        (by rw [elements_join htarget hproper, hsame, append_assoc])
        (by rw [elements_join hlocation hproper, hnames]) subtree hsubtree
      rw [Nodes.events, Nodes.visited, filterMap_append, map_append, ihrest]
      congr 1
      by_cases hsocket : node.type = .socket
      · simp [hsocket]
      · by_cases hdir : node.type = .dir
        · simp only [hdir, if_true, if_neg (by decide : NodeType.dir ≠ .socket)]
          rw [filterMap_cons_none rfl, filterMap_append, ihtree,
            filterMap_cons_none rfl, filterMap_nil, append_nil]
        · have hpaths : (⟨node, join target node.name, join location node.name⟩ : Visit) =
              visitOf dst (node, names ++ [node.name]) := by
            rw [join_proper (ne_nil_of_isAbs htarget) hproper,
              join_proper (ne_nil_of_isAbs hlocation) hproper, htarget,
              hlocation, hsame, hnames, append_assoc, visitOf]
          simp [hsocket, hdir, Event.visit?, hpaths]

end

theorem visits_eq (hdst : isAbs dst) {tree : Tree} (h : tree.Named) :
    visits dst tree = (tree.visited []).map (visitOf dst) :=
  Tree.visit_events hdst rfl (by simp) (by decide) tree h

end Paths

mutual

private theorem Tree.names_visited {names : List Bytes} :
    ∀ tree : Tree, tree.Named → ∀ reached ∈ tree.visited names,
      ∃ more, reached.2 = names ++ more ∧ ∀ name ∈ more, Proper name
  | .absent, _, _, hmem => by simp [Tree.visited] at hmem
  | .unloadable _, _, _, hmem => by simp [Tree.visited] at hmem
  | .mk _ nodes, h, reached, hmem => by
      obtain ⟨name, more, -, hreached, hproper⟩ := Nodes.names_visited nodes h reached hmem
      exact ⟨name :: more, hreached, hproper⟩

private theorem Nodes.names_visited {names : List Bytes} :
    ∀ nodes : Nodes, nodes.Named → ∀ reached ∈ nodes.visited names,
      ∃ name more, name ∈ nodes.names ∧ reached.2 = names ++ name :: more ∧
        ∀ element ∈ name :: more, Proper element
  | .nil, _, _, hmem => by simp [Nodes.visited] at hmem
  | .cons node subtree rest, ⟨hproper, _, hsubtree, hrest⟩, reached, hmem => by
      rw [Nodes.visited] at hmem
      rcases mem_append.mp hmem with hmem | hmem
      · obtain ⟨more, hreached, hmore⟩ : ∃ more, reached.2 = (names ++ [node.name]) ++ more ∧
              ∀ name ∈ more, Proper name := by
          split at hmem
          · simp at hmem
          · split at hmem
            · exact Tree.names_visited subtree hsubtree reached hmem
            · exact ⟨[], by simp_all, by simp⟩
        refine ⟨node.name, more, by simp [Nodes.names], by rw [hreached, append_assoc]; rfl, ?_⟩
        rw [forall_mem_cons]
        exact ⟨hproper, hmore⟩
      · obtain ⟨name, more, hname, hspec⟩ := Nodes.names_visited rest hrest reached hmem
        exact ⟨name, more, by simp [Nodes.names, hname], hspec⟩

end

mutual

private theorem Tree.visited_nodup {names : List Bytes} :
    ∀ tree : Tree, tree.Named → ((tree.visited names).map Prod.snd).Nodup
  | .absent, _ => nodup_nil
  | .unloadable _, _ => nodup_nil
  | .mk _ nodes, h => Nodes.visited_nodup nodes h

private theorem Nodes.visited_nodup {names : List Bytes} :
    ∀ nodes : Nodes, nodes.Named → ((nodes.visited names).map Prod.snd).Nodup
  | .nil, _ => nodup_nil
  | .cons node subtree rest, ⟨hproper, hfresh, hsubtree, hrest⟩ => by
      rw [Nodes.visited, map_append, nodup_append]
      refine ⟨?_, Nodes.visited_nodup rest hrest, ?_⟩
      · split
        · simp
        · split
          · exact Tree.visited_nodup subtree hsubtree
          · simp
      · -- the next name tells the two parts of the list apart
        intro first hfirst second hsecond hsame
        obtain ⟨reached, hreached, rfl⟩ := mem_map.mp hfirst
        obtain ⟨other, hother, rfl⟩ := mem_map.mp hsecond
        obtain ⟨name, more, hname, hpath, -⟩ := Nodes.names_visited rest hrest other hother
        obtain ⟨more', hpath'⟩ : ∃ more, reached.2 = names ++ node.name :: more := by
          split at hreached
          · simp at hreached
          · split at hreached
            · obtain ⟨more, hmore, -⟩ := Tree.names_visited subtree hsubtree reached hreached
              exact ⟨more, by simpa using hmore⟩
            · exact ⟨[], by simp_all⟩
        rw [hpath, hpath', append_cancel_left_eq, List.cons.injEq] at hsame
        exact hfresh (hsame.1 ▸ hname)

end

private theorem proper_of_visited {tree : Tree} (hnamed : tree.Named) {reached : Node × List Bytes}
    (h : reached ∈ tree.visited []) : ∀ name ∈ reached.2, Proper name := by
  obtain ⟨more, hreached, hproper⟩ := Tree.names_visited tree hnamed reached h
  rw [hreached, nil_append]
  exact hproper

section Targets

variable {dst : Bytes} (hdst : isAbs dst) {tree : Tree} (hnamed : tree.Named)
include hdst hnamed

theorem join_location {visit : Visit} (h : visit ∈ visits dst tree) :
    join dst visit.location = visit.target := by
  rw [visits_eq hdst hnamed] at h
  obtain ⟨reached, hreached, rfl⟩ := mem_map.mp h
  have hproper := proper_of_visited hnamed hreached
  rw [visitOf, join_render (ne_nil_of_isAbs hdst) hproper, hdst]

theorem visits_targets_nodup : ((visits dst tree).map Visit.target).Nodup := by
  rw [visits_eq hdst hnamed, map_map]
  have hnodup : ((tree.visited []).map Prod.snd).Nodup := Tree.visited_nodup tree hnamed
  have hmap : (tree.visited []).map (Visit.target ∘ visitOf dst) =
      ((tree.visited []).map Prod.snd).map (fun names => render true (elements dst ++ names)) := by
    rw [map_map]
    rfl
  rw [hmap]
  apply hnodup.map_on
  intro first hfirst second hsecond hsame
  obtain ⟨reached, hreached, rfl⟩ := mem_map.mp hfirst
  obtain ⟨other, hother, rfl⟩ := mem_map.mp hsecond
  have hnormal : Normal true (elements dst) := hdst ▸ clean_normal dst
  have hjoined := render_injective (hnormal.append (proper_of_visited hnamed hreached))
    (hnormal.append (proper_of_visited hnamed hother)) hsame
  exact append_cancel_left hjoined

end Targets

end Rapi.Restorer
