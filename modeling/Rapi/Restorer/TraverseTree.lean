import Rapi.Foundation.Interpretation
import Rapi.Restorer.Traverse

/-!
# The traversal as a program

`traverseTree` is a program here, whose actions are the calls of the repository,
of the error handler, of the filter and of the visitor.  These may answer
anything and remember what they were asked before.  With handlers that are
functions of their arguments, and a repository that can be read, the program is
the traversal `Tree.traverse`.
-/

namespace Rapi.Restorer

open Foundation Foundation.FilePath Restic Prog

inductive Call
  | loadTree (treeID : ID)
  | error (location : Bytes) (failure : Failure)
  | selectFilter (location target : Bytes) (node : Node)
  | enterDir (visit : Visit)
  | visitNode (visit : Visit)
  | leaveDir (visit : Visit)

abbrev Call.Res : Call → Type
  | .selectFilter _ _ _ => Bool × Bool
  | _ => Option Failure

abbrev TraverseM := Prog Call Call.Res

namespace TraverseM

abbrev loadTree (treeID : ID) : TraverseM (Option Failure) := perform (Call.loadTree treeID)

abbrev error (location : Bytes) (failure : Failure) : TraverseM (Option Failure) :=
  perform (Call.error location failure)

abbrev selectFilter (location target : Bytes) (node : Node) : TraverseM (Bool × Bool) :=
  perform (Call.selectFilter location target node)

abbrev enterDir (visit : Visit) : TraverseM (Option Failure) := perform (Call.enterDir visit)

abbrev visitNode (visit : Visit) : TraverseM (Option Failure) := perform (Call.visitNode visit)

abbrev leaveDir (visit : Visit) : TraverseM (Option Failure) := perform (Call.leaveDir visit)

/-- Context errors are permanent. -/
def sanitizeError (nodeLocation : Bytes) : Option Failure → TraverseM (Option Failure)
  | none => return none
  | some .canceled => return some .canceled
  | some .deadlineExceeded => return some .deadlineExceeded
  | some failure => error nodeLocation failure

/-- A call of a function of the visitor, if it is to be called. -/
def callVisitor (condition : Bool) (call : TraverseM (Option Failure))
    (nodeLocation : Bytes) : TraverseM (Option Failure) := do
  if condition then sanitizeError nodeLocation (← call)
  else return none

/-- Return with an error, or go on. -/
def orElse (hasRestored : Bool) (next : TraverseM (Bool × Option Failure)) :
    Option Failure → TraverseM (Bool × Option Failure)
  | some failure => return (hasRestored, some failure)
  | none => next

end TraverseM

/-- Which functions the visitor has besides `visitNode`. -/
structure Callbacks where
  enterDir : Bool
  leaveDir : Bool

section Program

open TraverseM

variable (visitor : Callbacks)

def traverseDir (visit : Visit) (selected hasRestored : Bool)
    (child : TraverseM (Bool × Option Failure)) (next : Bool → TraverseM (Bool × Option Failure)) :
    TraverseM (Bool × Option Failure) := do
  let err ← callVisitor (selected && visitor.enterDir) (enterDir visit) visit.location
  orElse hasRestored (do
    let (childHasRestored, err) ← child
    let err ← sanitizeError visit.location err
    orElse hasRestored (do
      let hasRestored := hasRestored || childHasRestored
      let err ← callVisitor
        ((selected || childHasRestored) && visitor.leaveDir) (leaveDir visit) visit.location
      orElse hasRestored (next hasRestored) err) err) err

mutual

def Tree.traverseTree (target location : Bytes) : Tree → TraverseM (Bool × Option Failure)
  | .absent => return (false, none)
  | .unloadable failure => do
      return (false, ← error location failure)
  | .mk treeID nodes => do
      match ← loadTree treeID with
      | some failure => return (false, ← error location failure)
      | none => nodes.traverseNodes target location treeID false

def Nodes.traverseNodes (target location : Bytes) (treeID : ID) :
    Nodes → Bool → TraverseM (Bool × Option Failure)
  | .nil, hasRestored => return (hasRestored, none)
  | .cons node subtree rest, hasRestored => do
      let nodeName := base (join [separator] node.name)
      if nodeName ≠ node.name then
        let err ← error location (.invalidChildName node.name)
        orElse hasRestored (rest.traverseNodes target location treeID hasRestored) err
      else
      let visit : Visit := ⟨node, join target nodeName, join location nodeName⟩
      if target = visit.target ∨
          Fs.hasPathPrefix target visit.target = false then
        let err ← error visit.location .invalidPath
        orElse hasRestored (rest.traverseNodes target location treeID hasRestored) err
      else if node.type = .socket then
        rest.traverseNodes target location treeID hasRestored
      else
      let answer ← selectFilter visit.location visit.target node
      let selected := answer.1
      let childMayBeSelected := answer.2
      let hasRestored := hasRestored || selected
      if node.type = .dir then
        if subtree.isAbsent then return (hasRestored, some (.dirWithoutSubtree treeID))
        else
        traverseDir visitor visit selected hasRestored
          (if childMayBeSelected then subtree.traverseTree visit.target visit.location
          else pure (false, none))
          (rest.traverseNodes target location treeID)
      else
        let err ← callVisitor selected (visitNode visit) visit.location
        orElse hasRestored (rest.traverseNodes target location treeID hasRestored) err

end

end Program

/-! ## Handlers without a memory of their own -/

section Interpretation

variable {σ : Type} (res : TreeRestorer) (visitor : Visitor σ)

def Visitor.callbacks : Callbacks where
  enterDir := visitor.enterDir.isSome
  leaveDir := visitor.leaveDir.isSome

/-- Answer a call; every tree that is there can be read. -/
def TreeRestorer.handle : (call : Call) → σ → call.Res × σ
  | .loadTree _, s => (none, s)
  | .error location failure, s => (res.error location failure, s)
  | .selectFilter location target node, s => (res.selectFilter location target node, s)
  | .enterDir visit, s => callIf true visitor.enterDir visit.node visit.target visit.location s
  | .visitNode visit, s => visitor.visitNode visit.node visit.target visit.location s
  | .leaveDir visit, s => callIf true visitor.leaveDir visit.node visit.target visit.location s

@[simps]
def Traversal.ofInterpretation (result : (Bool × Option Failure) × σ) : Traversal σ :=
  ⟨result.1.1, result.1.2, result.2⟩

variable (s : σ)

theorem interpret_sanitizeError (location : Bytes) (err : Option Failure) :
    (TraverseM.sanitizeError location err).interpret (res.handle visitor) s =
      (res.sanitizeError location err, s) := by
  cases err with
  | none => rfl
  | some failure => cases failure <;> rfl

theorem interpret_callVisitor {call : TraverseM (Option Failure)} {callback : Option (Callback σ)}
    {visit : Visit} (hcall : call.interpret (res.handle visitor) s =
      callIf true callback visit.node visit.target visit.location s) (condition : Bool) :
    (TraverseM.callVisitor (condition && callback.isSome) call
        visit.location).interpret (res.handle visitor) s =
      (res.sanitizeError visit.location (callIf condition callback visit.node
          visit.target visit.location s).1,
        (callIf condition callback visit.node visit.target visit.location s).2) := by
  cases condition with
  | false => rfl
  | true =>
    cases callback with
    | none => rfl
    | some callback => simp [TraverseM.callVisitor, hcall, interpret_sanitizeError]

theorem interpret_visitNode (selected : Bool) (visit : Visit) :
    (TraverseM.callVisitor selected (TraverseM.visitNode visit)
        visit.location).interpret (res.handle visitor) s =
      (res.sanitizeError visit.location (callIf selected
          (some visitor.visitNode) visit.node visit.target visit.location s).1,
        (callIf selected (some visitor.visitNode) visit.node visit.target visit.location s).2) := by
  have hcall : (TraverseM.visitNode visit).interpret (res.handle visitor) s =
      callIf true (some visitor.visitNode) visit.node visit.target
        visit.location s := rfl
  simpa using interpret_callVisitor res visitor s hcall selected

theorem interpret_orElse (hasRestored : Bool)
    (next : TraverseM (Bool × Option Failure)) (err : Option Failure) :
    Traversal.ofInterpretation ((TraverseM.orElse hasRestored next
        err).interpret (res.handle visitor) s) = match err with
      | some failure => ⟨hasRestored, some failure, s⟩
      | none => Traversal.ofInterpretation (next.interpret (res.handle visitor) s) := by
  cases err <;> rfl

theorem interpret_traverseDir {child : TraverseM (Bool × Option Failure)}
    {next : Bool → TraverseM (Bool × Option Failure)} {restore : σ → Traversal σ}
    {goOn : Bool → σ → Traversal σ} (hchild : ∀ s, Traversal.ofInterpretation
      (child.interpret (res.handle visitor) s) = restore s)
    (hnext : ∀ hasRestored s, Traversal.ofInterpretation
      ((next hasRestored).interpret (res.handle visitor) s) = goOn hasRestored s) (visit : Visit)
    (selected hasRestored : Bool) : Traversal.ofInterpretation
        ((traverseDir visitor.callbacks visit selected hasRestored child
          next).interpret (res.handle visitor) s) =
      let entered := callIf selected visitor.enterDir visit.node visit.target
        visit.location s
      match res.sanitizeError visit.location entered.1 with
      | some failure => ⟨hasRestored, some failure, entered.2⟩
      | none =>
        let child := restore entered.2
        match res.sanitizeError visit.location child.err with
        | some failure => ⟨hasRestored, some failure, child.state⟩
        | none =>
          let left := callIf (selected || child.hasRestored)
            visitor.leaveDir visit.node visit.target visit.location child.state
          match res.sanitizeError visit.location left.1 with
          | some failure => ⟨hasRestored || child.hasRestored, some failure, left.2⟩
          | none => goOn (hasRestored || child.hasRestored) left.2 := by
  simp only [traverseDir, Visitor.callbacks]
  rw [interpret_bind, interpret_orElse,
    @interpret_callVisitor _ res visitor s (.enterDir visit) visitor.enterDir visit rfl]
  dsimp only
  generalize callIf selected visitor.enterDir visit.node visit.target visit.location s = entered
  cases res.sanitizeError visit.location entered.1 with
  | some failure => rfl
  | none =>
    dsimp only
    rw [← hchild, interpret_bind, interpret_bind, interpret_sanitizeError, interpret_orElse]
    rw [Traversal.ofInterpretation_err]
    cases res.sanitizeError visit.location (child.interpret (res.handle visitor) entered.2).1.2 with
    | some failure => rfl
    | none =>
      dsimp only
      rw [interpret_bind, interpret_orElse, @interpret_callVisitor _ res visitor _
        (.leaveDir visit) visitor.leaveDir visit rfl, hnext]
      rfl

mutual

theorem Tree.interpret_traverseTree (target location : Bytes) : ∀ (tree : Tree) (s : σ),
      Traversal.ofInterpretation ((tree.traverseTree visitor.callbacks target location).interpret
            (res.handle visitor) s) = tree.traverse res visitor target location s
  | .absent, _ => rfl
  | .unloadable _, _ => rfl
  | .mk treeID nodes, s => Nodes.interpret_traverseNodes target location treeID nodes false s

theorem Nodes.interpret_traverseNodes (target location : Bytes) (treeID : ID) :
    ∀ (nodes : Nodes) (hasRestored : Bool) (s : σ), Traversal.ofInterpretation
          ((nodes.traverseNodes visitor.callbacks target location treeID
            hasRestored).interpret (res.handle visitor) s) =
        nodes.traverse res visitor target location treeID hasRestored s
  | .nil, hasRestored, s => rfl
  | .cons node subtree rest, hasRestored, s => by
      have ihrest := Nodes.interpret_traverseNodes target location treeID rest
      have ihtree (target location : Bytes) (mayBeSelected : Bool) (s : σ) :
          Traversal.ofInterpretation ((if mayBeSelected then
              subtree.traverseTree visitor.callbacks target location
            else pure (false, none)).interpret (res.handle visitor) s) =
          if mayBeSelected then subtree.traverse res visitor target location s
          else ⟨false, none, s⟩ := by
        split
        · exact Tree.interpret_traverseTree target location subtree s
        · rfl
      rw [Nodes.traverseNodes, Nodes.traverse]
      dsimp only
      split
      · rw [interpret_perform, interpret_orElse, ihrest]
        rfl
      split
      · rw [interpret_perform, interpret_orElse, ihrest]
        rfl
      split
      · exact ihrest _ _
      rw [interpret_perform]
      split
      · split
        · rfl
        · exact interpret_traverseDir res visitor s (ihtree _ _ _) ihrest ⟨node, _, _⟩ _ _
      · rw [interpret_bind, interpret_orElse, ihrest, interpret_visitNode]
        rfl

end

/-- A traversal that succeeds has called the visitor for everything, in order. -/
theorem traverseTree_runs_events (target location : Bytes) (tree : Tree)
    {hasRestored : Bool} {final : σ}
    (h : (tree.traverseTree visitor.callbacks target location).interpret
      (newRestorer.handle visitor) s = ((hasRestored, none), final)) :
    runEvents visitor (tree.events target location) s = some final := by
  have hpure := tree.interpret_traverseTree newRestorer visitor target location s
  rw [h] at hpure
  have hevents := tree.runEvents_of_traverse visitor target location s
  rw [← hpure] at hevents
  exact hevents rfl

end Interpretation

/-- The calls for a directory with a file and for a file after it. -/
theorem traverseTree_runs_events_dir :
    let call (kind : Nat) : Callback (List (Nat × Bytes)) :=
      fun _ _ location s => (none, s ++ [(kind, location)])
    let visitor : Visitor (List (Nat × Bytes)) := ⟨some (call 0), call 1, some (call 2)⟩
    let file : Node := (sampleFile [97] 0 []).toNode
    let dir : Node := (sampleDir [100] (.ofNat 1)).toNode
    let tree : Tree := .mk .null (.cons dir (.mk (.ofNat 1) (.cons file .absent .nil))
      (.cons file .absent .nil))
    runEvents visitor (tree.events [47, 98] [47]) [] =
      some [(0, [47, 100]), (1, [47, 100, 47, 97]), (2, [47, 100]), (1, [47, 97])] :=
  traverseTree_runs_events _ [] [47, 98] [47] _ rfl

end Rapi.Restorer
