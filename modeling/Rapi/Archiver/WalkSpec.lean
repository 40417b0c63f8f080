import Rapi.Archiver.WorkerSpec

/-!
# What the walk over the targets keeps

The goroutine that walks the targets owns nothing.  A node that it takes over
from the parent snapshot has only blobs that the repository knows, and a tree
that it stores itself is as good as the nodes in it.
-/

namespace Rapi.Archiver

open Foundation List Logic
open Restic (ID BlobType BlobHandle NodeType TreeNode)
open Repository (Repo RepoState SaveError Token Later)

variable {cfg : Config} {start s : RepoState} {t : State}

/-! ## Files and directories -/

section Items

theorem wp_archError {err : Error} : archWp cfg start (archError err)
      (Quiet fun _ _ _ => True) (s, t) 0 := by
  unfold archError
  split
  · exact wp_return fun _ _ _ _ => trivial
  · exact wp_ask (fun _ _ _ _ h => h) fun _ _ _ _ _ _ _ _ => wp_return fun _ _ _ _ => trivial

theorem wp_oldSubtree {node : Option TreeNode} : archWp cfg start (oldSubtree node)
      (Quiet fun _ _ _ => True) (s, t) 0 := by
  have hload : archWp cfg start (loadSubtree node) (Quiet fun _ _ _ => True) (s, t) 0 := by
    unfold loadSubtree
    split
    · exact wp_return fun _ _ _ _ => trivial
    · split
      · refine wp_ask (fun _ _ _ _ h => h) fun _ _ _ tree _ _ _ _ => ?_
        cases tree <;> exact wp_return fun _ _ _ _ => trivial
      · exact wp_return fun _ _ _ _ => trivial
  refine wp_andThen hload fun result s₁ t₁ _ _ _ => ?_
  cases result with
  | ok tree => exact wp_return fun _ _ _ _ => trivial
  | error err =>
    refine wp_andThen wp_archError fun err _ _ _ _ _ => ?_
    cases err <;> exact wp_return fun _ _ _ _ => trivial

def SavePost (cfg : Config) (result : Except Error (Option FutureNode))
    (s : RepoState) (_ : State) : Prop := ∀ fn, result = .ok (some fn) → ValidFuture cfg s fn

theorem wp_excludeOnError {wrap : Error → Error} {err : Error} :
    archWp cfg start (excludeOnError wrap err) (Quiet (SavePost cfg)) (s, t) 0 := by
  refine wp_andThen wp_archError fun err _ _ _ _ _ => ?_
  cases err <;> exact wp_return fun _ _ _ _ => nofun

theorem wp_readFile {file : Except Error FileInfo} : archWp cfg start (readFile file)
      (Quiet (SavePost cfg)) (s, t) 0 := by
  cases file with
  | error err => exact wp_excludeOnError
  | ok fi =>
    unfold readFile
    dsimp only
    split
    · exact wp_excludeOnError
    refine wp_onTop (by simp) fun s₁ t₁ frame _ _ hinv i t' hexec => ?_
    obtain ⟨rfl, taken, reply, hsend, rfl⟩ := hexec
    have hafter : After t₁ { t₁ with files := t₁.files ++ [⟨fi, taken, reply⟩] } :=
      ⟨fun _ => id, id, fun _ _ _ _ => id⟩
    refine ⟨0, ?_, hafter, ?_⟩
    · refine Kept.step hinv hafter hinv.failed hinv.contexts (fun _ => Or.inl)
        (fun slot hslot => ?_) (fun _ => Or.inl)
      rcases mem_append.mp hslot with hslot | hslot
      · exact Or.inl hslot
      · obtain rfl := mem_singleton.mp hslot
        right
        rcases hsend with ⟨-, rfl⟩ | ⟨-, -, rfl⟩ <;> exact nofun
    · refine wp_return ?_
      rintro _ _ _ _ _ ⟨⟩
      trivial

theorem wp_allBlobsPresent {content : List ID} : archWp cfg start (allBlobsPresent content)
      (Quiet fun present s _ => present → ∀ id ∈ content, s.idx.has ⟨id, .data⟩) (s, t) 0 := by
  induction content generalizing s t with
  | nil => exact wp_return fun _ _ _ _ _ => nofun
  | cons id rest ih =>
    refine wp_ask (fun _ _ _ _ h => h.1) fun s₁ t₁ _ found _ _ _ hfound => ?_
    split
    · rename_i hpresent
      refine wp_mono ih ?_
      rintro present ⟨s₂, t₂⟩ own ⟨hs₂, _⟩ ⟨rfl, hrest⟩
      refine ⟨rfl, fun hall other hother => ?_⟩
      rcases mem_cons.mp hother with rfl | hother
      · exact hs₂.has _ (hfound.2.symm.trans hpresent)
      · exact hrest hall other hother
    · exact wp_return fun _ _ _ _ => nofun

theorem wp_saveRegular {fi : FileInfo} {file : Except Error FileInfo} {previous : Option TreeNode} :
    archWp cfg start (saveRegular cfg fi file previous) (Quiet (SavePost cfg)) (s, t) 0 := by
  cases previous with
  | none => exact wp_readFile
  | some node =>
    unfold saveRegular
    dsimp only
    split
    · exact wp_readFile
    refine wp_andThen wp_allBlobsPresent fun present s₁ t₁ _ _ hpresent => ?_
    split
    · rename_i hall
      refine wp_ask (fun _ _ _ _ h => h) fun s₂ t₂ _ failed hs₂ _ _ _ => ?_
      split
      · exact wp_return fun _ _ _ _ _ h => by cases h
      · refine wp_return ?_
        rintro s₃ t₃ hs₃ - _ ⟨⟩
        exact ⟨by rintro _ ⟨⟩, fun id hid => (hs₂.trans hs₃).has _ (hpresent hall id hid)⟩
    · refine wp_andThen wp_archError fun err _ _ _ _ _ => ?_
      cases err with
      | some err => exact wp_return fun _ _ _ _ _ h => by cases h
      | none => exact wp_readFile

theorem wp_sendTree {fi : FileInfo} {nodes : List FutureNode}
    (hnodes : ∀ fn ∈ nodes, ValidFuture cfg s fn) : archWp cfg start
      (perform (.sendTree (nodeFromFileInfo fi) nodes) >>= fun i =>
        pure (.ok (some (.tree i)))) (Quiet (SavePost cfg)) (s, t) 0 := by
  refine wp_onTop (by simp) fun s₁ t₁ frame hs₁ _ hinv i t' hexec => ?_
  obtain ⟨rfl, taken, reply, hsend, rfl⟩ := hexec
  have hafter : After t₁ { t₁ with
      trees := t₁.trees ++ [⟨nodeFromFileInfo fi, nodes, taken, reply⟩] } :=
    ⟨fun _ => id, id, fun _ _ _ _ => id⟩
  refine ⟨0, ?_, hafter, ?_⟩
  · refine Kept.step hinv hafter hinv.failed hinv.contexts (fun _ => Or.inl)
      (fun _ => Or.inl) (fun slot hslot => ?_)
    rcases mem_append.mp hslot with hslot | hslot
    · exact Or.inl hslot
    · obtain rfl := mem_singleton.mp hslot
      refine Or.inr ⟨rfl, fun fn hfn => (hnodes fn hfn).later hs₁, ?_⟩
      rcases hsend with ⟨-, rfl⟩ | ⟨-, -, rfl⟩ <;> exact nofun
  · refine wp_return ?_
    rintro _ _ _ _ _ ⟨⟩
    trivial

mutual

theorem wp_save (item : Item) (previous : Option TreeNode) (s : RepoState) (t : State) :
    archWp cfg start (save cfg item previous) (Quiet (SavePost cfg)) (s, t) 0 := by
  match item with
  | .absFails => exact wp_return fun _ _ _ _ => nofun
  | .excludedByName => exact wp_return fun _ _ _ _ => nofun
  | .lstatFails => exact wp_excludeOnError
  | .found fi selected file readable names =>
    unfold save
    split
    · exact wp_return fun _ _ _ _ => nofun
    split
    · exact wp_saveRegular
    · refine wp_andThen wp_oldSubtree fun old s₁ t₁ _ _ _ => ?_
      cases old with
      | error err => exact wp_return fun _ _ _ _ => nofun
      | ok tree =>
        refine wp_ask (fun _ _ _ _ h => h) fun s₂ t₂ _ failed _ _ _ _ => ?_
        split
        · exact wp_return fun _ _ _ _ => nofun
        split
        · exact wp_return fun _ _ _ _ => nofun
        refine wp_andThen (wp_saveItems names tree [] s₂ t₂ nofun)
          fun result s₃ t₃ _ _ hresult => ?_
        cases result with
        | error err => exact wp_return fun _ _ _ _ => nofun
        | ok nodes => exact wp_sendTree (hresult nodes rfl)
    · exact wp_return fun _ _ _ _ => nofun
    · refine wp_ask (fun _ _ _ _ h => h) fun s₂ t₂ _ failed _ _ _ _ => ?_
      split
      · exact wp_return fun _ _ _ _ => nofun
      · refine wp_return ?_
        rintro _ _ _ _ _ ⟨⟩
        exact validNode_fromFileInfo fi

theorem wp_saveItems (items : Items) (previous : Option Restic.Tree) (nodes : List FutureNode)
    (s : RepoState) (t : State) (hnodes : ∀ fn ∈ nodes, ValidFuture cfg s fn) :
    archWp cfg start (saveItems cfg items previous nodes)
      (Quiet fun result s _ => ∀ nodes, result = .ok nodes →
        ∀ fn ∈ nodes, ValidFuture cfg s fn) (s, t) 0 := by
  match items with
  | .nil =>
    refine wp_return ?_
    rintro s' t' hs' - _ ⟨⟩ fn hfn
    exact (hnodes fn hfn).later hs'
  | .cons name item rest =>
    refine wp_ask (fun _ _ _ _ h => h.1) fun s₁ t₁ _ err hs₁ _ _ _ => ?_
    cases err with
    | some err => exact wp_return nofun
    | none =>
      refine wp_andThen (wp_save item _ s₁ t₁) fun result s₂ t₂ hs₂ _ hresult => ?_
      have hnodes₂ : ∀ fn ∈ nodes, ValidFuture cfg s₂ fn := fun fn hfn =>
        (hnodes fn hfn).later (hs₁.trans hs₂)
      cases result with
      | error err =>
        refine wp_andThen wp_archError fun err s₃ t₃ hs₃ _ _ => ?_
        cases err with
        | none =>
          exact wp_saveItems rest previous nodes s₃ t₃ fun fn hfn => (hnodes₂ fn hfn).later hs₃
        | some err => exact wp_return nofun
      | ok found =>
        cases found with
        | none => exact wp_saveItems rest previous nodes s₂ t₂ hnodes₂
        | some fn =>
          refine wp_saveItems rest previous _ s₂ t₂ fun fn' hfn' => ?_
          rcases mem_append.mp hfn' with hfn' | hfn'
          · exact hnodes₂ fn' hfn'
          · rw [mem_singleton.mp hfn']
            exact hresult fn rfl

end

end Items

/-! ## The targets -/

section Targets

theorem ValidNode.rename {node : TreeNode} (h : ValidNode cfg s node)
    (name : Bytes) : ValidNode cfg s { node with name := name } := ⟨h.subtree, h.content⟩

theorem wp_insertFutures {futures : List (Bytes × FutureNode)} {tree : Restic.Tree}
    (hfutures : ∀ future ∈ futures, ValidFuture cfg s future.2) (htree : ValidNodes cfg s t tree) :
    archWp cfg start (insertFutures futures tree)
      (Quiet fun result s t => ∀ tree, result = .ok tree → ValidNodes cfg s t tree) (s, t) 0 := by
  induction futures generalizing s t tree with
  | nil =>
    refine wp_return ?_
    rintro s' t' hs' ht' _ ⟨⟩
    exact htree.later hs' ht'
  | cons future rest ih =>
    obtain ⟨name, fn⟩ := future
    refine wp_andThen (wp_wait (hfutures (name, fn) (by simp))) ?_
    rintro ⟨node, err⟩ s₁ t₁ hs₁ ht₁ hnode
    have hrest : ∀ future ∈ rest, ValidFuture cfg s₁ future.2 :=
      fun future hfuture => (hfutures future (mem_cons_of_mem _ hfuture)).later hs₁
    have htree₁ := htree.later hs₁ ht₁
    cases err with
    | some err =>
      refine wp_andThen wp_archError fun err s₂ t₂ hs₂ ht₂ _ => ?_
      cases err with
      | none =>
        exact ih (fun future hfuture => (hrest future hfuture).later hs₂) (htree₁.later hs₂ ht₂)
      | some err => exact wp_return nofun
    | none =>
      cases node with
      | none => exact ih hrest htree₁
      | some node =>
        dsimp only
        cases hinsert : tree.insert { node with name := name } with
        | none => exact wp_return nofun
        | some tree' =>
          refine ih hrest (htree₁.insert ?_ hinsert)
          exact (hnode node rfl).imp_left fun h => h.rename name

theorem wp_saveSubtree {fileInfoPath name : Bytes} {subtree tree : Restic.Tree}
    (hsubtree : ValidNodes cfg s t subtree) (htree : ValidNodes cfg s t tree) : archWp cfg start
      (saveSubtree fileInfoPath name subtree tree)
      (Quiet fun result s t => ∀ tree, result = .ok tree → ValidNodes cfg s t tree) (s, t) 0 := by
  refine wp_andThen (wp_saveTree hsubtree) ?_
  rintro result s₁ t₁ hs₁ ht₁ hresult
  cases result with
  | error err => exact wp_return fun _ _ _ _ _ h => by cases h
  | ok id =>
    dsimp only
    split
    · exact wp_return fun _ _ _ _ _ h => by cases h
    refine wp_ask (fun _ _ _ _ h => h) fun s₂ t₂ _ fi hs₂ ht₂ _ _ => ?_
    cases fi with
    | none => exact wp_return fun _ _ _ _ _ h => by cases h
    | some fi =>
      refine wp_ask (fun _ _ _ _ h => h) fun s₃ t₃ _ failed hs₃ ht₃ _ _ => ?_
      split
      · exact wp_return fun _ _ _ _ _ h => by cases h
      split
      · exact wp_return fun _ _ _ _ _ h => by cases h
      · rename_i tree' hinsert
        refine wp_return ?_
        rintro s₄ t₄ hs₄ ht₄ _ ⟨⟩
        have hs := hs₂.trans (hs₃.trans hs₄)
        have ht := ht₂.trans (ht₃.trans ht₄)
        refine ValidNodes.insert (htree.later (hs₁.trans hs) (ht₁.trans ht)) ?_ hinsert
        rcases hresult id rfl with hvalid | hfailed
        · refine Or.inl ⟨?_, fun _ h => by cases h⟩
          rintro _ ⟨⟩
          exact hvalid.later hs
        · exact Or.inr (Or.inr (ht.failed hfailed))

mutual

theorem wp_saveAtree (atree : Tree) (previous : Option Restic.Tree) (s : RepoState) (t : State) :
    archWp cfg start (saveAtree cfg atree previous)
      (Quiet fun result s t => ∀ tree, result = .ok tree → ValidNodes cfg s t tree) (s, t) 0 := by
  match atree with
  | .mk nodes path fileInfoPath root =>
    refine wp_andThen (wp_saveAtreeNodes nodes previous ⟨[]⟩ [] s t .empty nofun) ?_
    rintro result s₁ t₁ - - hresult
    cases result with
    | error err => exact wp_return nofun
    | ok result =>
      obtain ⟨tree, futures⟩ := result
      obtain ⟨htree, hfutures⟩ := hresult _ _ rfl
      refine wp_ask (fun _ _ _ _ h => h.1) fun s₂ t₂ _ order hs₂ ht₂ _ horder => ?_
      refine wp_insertFutures (fun future hfuture => ?_) (htree.later hs₂ ht₂)
      exact (hfutures future (horder.2.mem_iff.mp hfuture)).later hs₂

theorem wp_saveAtreeNodes (nodes : Nodes) (previous : Option Restic.Tree) (tree : Restic.Tree)
    (futures : List (Bytes × FutureNode)) (s : RepoState) (t : State)
    (htree : ValidNodes cfg s t tree) (hfutures : ∀ future ∈ futures, ValidFuture cfg s future.2) :
    archWp cfg start (saveAtreeNodes cfg nodes previous tree futures)
      (Quiet fun result s t => ∀ tree futures, result = .ok (tree, futures) →
        ValidNodes cfg s t tree ∧
          ∀ future ∈ futures, ValidFuture cfg s future.2) (s, t) 0 := by
  match nodes with
  | .nil =>
    refine wp_return ?_
    rintro s' t' hs' ht' _ _ ⟨⟩
    exact ⟨htree.later hs' ht', fun future hfuture => (hfutures future hfuture).later hs'⟩
  | .cons name (.mk subnodes path fileInfoPath root) rest =>
    refine wp_ask (fun _ _ _ _ h => h.1) fun s₁ t₁ _ err hs₁ ht₁ _ _ => ?_
    cases err with
    | some err => exact wp_return nofun
    | none =>
      -- what the rest of the loop starts with
      have hrest : ∀ {s₂ t₂}, Later s₁ s₂ → After t₁ t₂ →
          ValidNodes cfg s₂ t₂ tree ∧ ∀ future ∈ futures, ValidFuture cfg s₂ future.2 :=
        fun hs₂ ht₂ => ⟨htree.later (hs₁.trans hs₂) (ht₁.trans ht₂),
          fun future hfuture => (hfutures future hfuture).later (hs₁.trans hs₂)⟩
      dsimp only
      split
      · refine wp_ask (fun _ _ _ _ h => h) fun s₂ t₂ _ item hs₂ ht₂ _ _ => ?_
        refine wp_andThen (wp_save item _ s₂ t₂) fun result s₃ t₃ hs₃ ht₃ hresult => ?_
        obtain ⟨htree₃, hfutures₃⟩ := hrest (hs₂.trans hs₃) (ht₂.trans ht₃)
        cases result with
        | error err =>
          refine wp_andThen wp_archError fun err s₄ t₄ hs₄ ht₄ _ => ?_
          cases err with
          | some err => exact wp_return nofun
          | none =>
            exact wp_saveAtreeNodes rest previous tree futures s₄ t₄
              (htree₃.later hs₄ ht₄) fun future hfuture => (hfutures₃ future hfuture).later hs₄
        | ok found =>
          cases found with
          | none => exact wp_saveAtreeNodes rest previous tree futures s₃ t₃ htree₃ hfutures₃
          | some fn =>
            refine wp_saveAtreeNodes rest previous tree _ s₃ t₃ htree₃ fun future hfuture => ?_
            rcases mem_append.mp hfuture with hfuture | hfuture
            · exact hfutures₃ future hfuture
            · rw [mem_singleton.mp hfuture]
              exact hresult fn rfl
      · refine wp_andThen wp_oldSubtree fun old s₂ t₂ hs₂ ht₂ _ => ?_
        cases old with
        | error err => exact wp_return nofun
        | ok old =>
          refine wp_andThen (wp_saveAtree (.mk subnodes path fileInfoPath root) old s₂ t₂)
            fun result s₃ t₃ hs₃ ht₃ hresult => ?_
          cases result with
          | error err => exact wp_return nofun
          | ok subtree =>
            obtain ⟨htree₃, hfutures₃⟩ := hrest (hs₂.trans hs₃) (ht₂.trans ht₃)
            refine wp_andThen (wp_saveSubtree (hresult subtree rfl) htree₃)
              fun result s₄ t₄ hs₄ ht₄ hresult => ?_
            cases result with
            | error err => exact wp_return nofun
            | ok tree' =>
              exact wp_saveAtreeNodes rest previous tree' futures s₄
                t₄ (hresult tree' rfl) fun future hfuture => (hfutures₃ future hfuture).later hs₄

end

theorem wp_walk {atree : Tree} : archWp cfg start (walk cfg atree) (Post cfg) (s, t) 0 := by
  refine wp_ask (fun _ _ _ _ h => h) fun s₁ t₁ _ parent _ _ _ _ => ?_
  refine wp_bind (wp_mono (wp_saveAtree atree.sorted parent s₁ t₁) ?_)
  rintro result ⟨s₂, t₂⟩ _ - ⟨rfl, hresult⟩
  cases result with
  | error err => exact wp_pure fun _ _ => nofun
  | ok tree =>
    dsimp only
    split
    · exact wp_pure fun _ _ => nofun
    refine wp_bind (wp_mono (wp_saveTree (hresult tree rfl)) ?_)
    rintro saved ⟨s₃, t₃⟩ _ - ⟨rfl, hsaved⟩
    refine wp_onTop (by simp) fun s₄ t₄ frame hs₄ ht₄ hinv _ t' hexec => ?_
    cases hexec
    have hkilled := After.cancel t₄ .main
    refine ⟨0, Kept.cancel hinv nofun, hkilled, wp_pure ?_⟩
    rintro ⟨s₅, t₅⟩ ⟨hs₅, ht₅⟩ root hroot
    refine ⟨.zero, ?_⟩
    rintro id rfl
    cases saved with
    | error err => cases hroot
    | ok id' =>
      cases hroot
      exact (hsaved id rfl).imp (fun hvalid => hvalid.later (hs₄.trans hs₅))
        (fun hfailed => (ht₄.trans (hkilled.trans ht₅)).failed hfailed)

end Targets

end Rapi.Archiver
