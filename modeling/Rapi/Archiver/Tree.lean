import Rapi.Foundation.FilePath
import Rapi.Foundation.FreeName

/-!
# The tree of backup targets

`Tree` says where each backup target goes in the snapshot.  A target is inserted
below the directories named by its path components.  Targets that share their
first component but come from different root directories are kept apart by
numbered names at the top level.  Paths follow the Unix rules, so there are no
volume names and no virtual prefix.
-/

namespace Rapi.Archiver

open Foundation Foundation.FilePath

/-! ## Path components and root directories -/

/-- The loop of `pathComponents`; the components come out in path order. -/
def collectComponents : Nat → Bytes → List Bytes → List Bytes
  | 0, _, components => components
  | fuel + 1, p, components =>
    if p = dir p then components
    else collectComponents fuel (dir p) (base p :: components)

def pathComponents (p : Bytes) (includeRelative : Bool) : List Bytes :=
  let p := if !isAbs p && !includeRelative then join [separator] p else p
  let p := clean p
  collectComponents p.length p []

def rootDirectory (target : Bytes) : Bytes :=
  if target = [] then []
  else if isAbs target then join [] [separator]
  else
    (pathComponents (clean target) true).foldl
      (fun rel c => if c = dotdot then join rel c else rel) dot

private theorem collectComponents_render {rooted : Bool}
    {elements : List Bytes} (h : Normal rooted elements) {fuel : Nat}
    (hfuel : elements.length ≤ fuel) (components : List Bytes) :
    collectComponents fuel (render rooted elements) components = elements ++ components := by
  induction elements using List.reverseRecOn generalizing fuel components with
  | nil =>
    cases fuel with
    | zero => rfl
    | succ fuel => simp [collectComponents, dir_render_nil]
  | append_singleton elements element ih =>
    cases fuel with
    | zero => simp at hfuel
    | succ fuel =>
      have hne : render rooted (elements ++ [element]) ≠
          render rooted elements := by
        intro hsame
        simpa using render_injective h h.init hsame
      rw [collectComponents, dir_render_snoc h, if_neg hne,
        base_render_snoc h, ih h.init (by simp at hfuel; omega)]
      simp

theorem pathComponents_eq (p : Bytes) (includeRelative : Bool) :
    pathComponents p includeRelative =
      normalize (isAbs p || !includeRelative) (p.splitOn separator) := by
  have hcollect : ∀ {rooted elements}, Normal rooted elements →
      collectComponents (render rooted elements).length (render rooted elements) [] = elements := by
    intro rooted elements h
    rw [collectComponents_render h h.length_le_render, List.append_nil]
  cases hextend : !isAbs p && !includeRelative with
  | true =>
    simp only [Bool.and_eq_true, Bool.not_eq_true'] at hextend
    have hnormal : Normal true (normalize true (p.splitOn separator)) :=
      normalize_normal (unseparated_splitOn p)
    simp only [pathComponents, hextend, Bool.not_false, Bool.and_self,
      if_true, Bool.or_true, join_separator, clean_render hnormal]
    exact hcollect hnormal
  | false =>
    have hrooted : (isAbs p || !includeRelative) = isAbs p := by
      cases hp : isAbs p <;> cases includeRelative <;> simp_all
    simp only [pathComponents, hextend, hrooted, Bool.false_eq_true, if_false, clean]
    exact hcollect (clean_normal p)

/-! ## Trees -/

mutual

inductive Tree
  | mk (nodes : Nodes) (path fileInfoPath root : Bytes)

inductive Nodes
  | nil
  | cons (name : Bytes) (tree : Tree) (rest : Nodes)

end

namespace Nodes

def get? : Nodes → Bytes → Option Tree
  | .nil, _ => none
  | .cons other tree rest, name => if other = name then some tree else rest.get? name

def set : Nodes → Bytes → Tree → Nodes
  | .nil, name, tree => .cons name tree .nil
  | .cons other old rest, name, tree =>
    if other = name then .cons name tree rest
    else .cons other old (rest.set name tree)

def names : Nodes → List Bytes
  | .nil => []
  | .cons name _ rest => name :: rest.names

end Nodes

namespace Tree

def nodes : Tree → Nodes
  | .mk nodes _ _ _ => nodes

def path : Tree → Bytes
  | .mk _ path _ _ => path

def root : Tree → Bytes
  | .mk _ _ _ root => root

def empty : Tree := .mk .nil [] [] []

def withPath : Tree → Bytes → Tree
  | .mk nodes _ fileInfoPath root, path => .mk nodes path fileInfoPath root

def withFileInfoPath : Tree → Bytes → Tree
  | .mk nodes path _ root, fileInfoPath => .mk nodes path fileInfoPath root

def setNode : Tree → Bytes → Tree → Tree
  | .mk nodes path fileInfoPath root, name, node => .mk (nodes.set name node) path fileInfoPath root

end Tree

/-- Errors and panics carry the text, or the format and its argument. -/
inductive Failure
  | panic (text : String)
  | error (text : String)
  | errorf (format : String) (target : Bytes)
  deriving DecidableEq, Repr

namespace Tree

/-- Models `Tree.add`, which works below the top level. -/
def addBelow (target : Bytes) : Tree → Bytes → List Bytes → Except Failure Tree
  | _, _, [] => .error (.errorf "invalid path %q" target)
  | t, _, [name] =>
    match t.nodes.get? name with
    | none => .ok (t.setNode name (empty.withPath target))
    | some tree =>
      if tree.path ≠ [] then .error (.errorf "path is already set for target %v" target)
      else .ok (t.setNode name (tree.withPath target))
  | t, root, name :: next :: rest =>
    let subroot := join root name
    let tree := ((t.nodes.get? name).getD empty).withFileInfoPath subroot
    match tree.addBelow target subroot (next :: rest) with
    | .error failure => .error failure
    | .ok tree => .ok (t.setNode name tree)

/--
The naming loop of `Add` from its `i`-th round on: the name to use, and the
tree to extend, which is the one found there or a new one.
-/
def nameLoop (nodes : Nodes) (origName root : Bytes) : Nat → Nat → Bytes × Tree
  | 0, i => (numbered origName i, .mk .nil [] [] root)
  | fuel + 1, i =>
    let name := numbered origName i
    match nodes.get? name with
    | none => (name, .mk .nil [] [] root)
    | some other =>
      if other.root = root then (name, other)
      else nameLoop nodes origName root fuel (i + 1)

/-- Where `Add` puts a path whose first component is `origName`. -/
def slot (t : Tree) (path origName : Bytes) : Bytes × Tree :=
  nameLoop t.nodes origName (rootDirectory path) t.nodes.names.length 0

def add (t : Tree) (path : Bytes) : Except Failure Tree :=
  if path = [] then .error (.panic "invalid path (empty string)")
  else
    match pathComponents path false with
    | [] => .error (.error "invalid path (no path components)")
    | [origName] =>
      let found := t.slot path origName
      .ok (t.setNode found.1 (found.2.withPath path))
    | origName :: next :: rest =>
      let found := t.slot path origName
      let subroot := join (rootDirectory path) origName
      match found.2.addBelow path subroot (next :: rest) with
      | .error failure => .error failure
      | .ok tree => .ok (t.setNode found.1 (tree.withFileInfoPath subroot))

def addAll (t : Tree) (targets : List Bytes) : Except Failure Tree := targets.foldlM add t

end Tree

mutual

/-- The non-empty `Path` values of a tree. -/
def Tree.paths : Tree → List Bytes
  | .mk nodes path _ _ => (if path = [] then [] else [path]) ++ nodes.paths

def Nodes.paths : Nodes → List Bytes
  | .nil => []
  | .cons _ tree rest => tree.paths ++ rest.paths

end

end Rapi.Archiver
