import Rapi.Dump.Common
import Rapi.Foundation.Playback
import Rapi.Walker.Visits

/-!
# A dump that succeeds is complete

If the trees load and the context is not cancelled, the sender sends all nodes
before it closes the channel, and so the writer has an entry for each of them when
it finds the channel closed.  Otherwise the sender closes the channel early, and
the writer cannot tell.
-/

namespace Rapi.Dump

open Foundation Foundation.FilePath Restic Walker Bloblru Foundation.Pipe List Logic

/-! ## What is sent -/

def dumped (node : TreeNode) : Bool := isFile node || isDir node || isLink node

/-- The nodes below a directory, with their paths. -/
def below (path : Bytes) (children : Nodes) : List Item :=
  (children.paths [separator]).map fun (p, node) => ⟨join path p, node⟩

def unfolded (rootPath : Bytes) : Nodes → List Item
  | .nil => []
  | .cons root children rest =>
    let path := join rootPath root.name
    ⟨path, root⟩ :: (below path children ++ unfolded rootPath rest)

/-- The nodes of the root tree are sent whatever their type. -/
def toSend (rootPath : Bytes) : Nodes → List Item
  | .nil => []
  | .cons root children rest =>
    let path := join rootPath root.name
    ⟨path, root⟩ :: ((below path children).filter (dumped ·.node) ++ toSend rootPath rest)

section Sender

variable {ε : Type} {format : Format} {blobs : ID → Bytes} {e : Environment}
  {full : List Item → Prop}

/-- The items after a part of the walk below a directory. -/
def sentBelow (path : Bytes) (before : List Item) (l : List (Bytes × TreeNode))
    (m : Share Writer Item) : Prop :=
  m = sending (before ++
    (l.map fun (p, node) => (⟨join path p, node⟩ : Item)).filter (dumped ·.node))

theorem loads_of_not_failing (path : Bytes) (before : List Item) {id : ID} (hid : ¬e.failing id) :
    Loads (logic full) (system (setting ε format blobs e)) loadTree (sentBelow path before) id := by
  intro l s m hl
  refine wp_produce (fun failure hfailure s => ?_) s
  obtain rfl : failure = none := hfailure.resolve_right hid
  exact wp_pure fun s' _ => ⟨rfl, hl⟩

theorem sendNode_visits (path : Bytes) (before : List Item) (parentTreeID : ID)
    (nodepath : Bytes) (node : TreeNode) :
    CallVisits (logic full) (system (setting ε format blobs e)) (sendNode path)
      (sentBelow path before) parentTreeID nodepath node := by
  rintro l s m rfl
  have hitem : (l ++ [(nodepath, node)]).map (fun (p, node) => (⟨join path p, node⟩ : Item)) =
      l.map (fun (p, node) => ⟨join path p, node⟩) ++ [⟨join path nodepath, node⟩] := by
    rw [map_append, map_singleton]
  rw [sendNode]
  by_cases hnode : dumped node
  · have hsent : (!isFile node && !isDir node && !isLink node) = false := by
      rw [← Bool.not_or, ← Bool.not_or]
      exact congrArg not hnode
    rw [hsent, if_neg Bool.false_ne_true]
    refine wp_send (fun s => ?_) s
    rw [if_pos rfl]
    refine wp_pure fun s' _ => ⟨rfl, ?_⟩
    rw [sentBelow, hitem, filter_append, ← append_assoc]
    simp [hnode]
  · have hskipped : (!isFile node && !isDir node && !isLink node) := by
      rw [← Bool.not_or, ← Bool.not_or, Bool.not_eq_true']
      exact Bool.not_eq_true _ ▸ hnode
    rw [hskipped, if_pos rfl]
    refine wp_pure fun s' _ => ⟨rfl, ?_⟩
    rw [sentBelow, hitem, filter_append]
    simp [hnode]

theorem wp_sendNodes {path : Bytes} {root : TreeNode} {children : Nodes}
    (hsub : root.type = .dir → root.subtree ≠ none) (hleaf : root.type ≠ .dir → children = .nil)
    (hsound : children.Sound) (hroot : ∀ id, treeOf root = some id → ¬e.failing id)
    (hload : ∀ id ∈ children.trees, ¬e.failing id) (before : List Item) (s : State Writer Item) :
    (logic full).wp (system (setting ε format blobs e)) (sendNodes path root children)
      (fun failure _ m => failure = none ∧
        m = sending (before ++ ⟨path, root⟩ :: (below path children).filter (dumped ·.node)))
      s (sending before) := by
  rw [sendNodes]
  refine wp_send (fun s => ?_) s
  rw [if_pos rfl]
  by_cases hdir : root.type = .dir
  · obtain ⟨subtree, hsubtree⟩ := Option.ne_none_iff_exists'.mp (hsub hdir)
    have htree : treeOf root = some subtree := by simp [treeOf, hdir, hsubtree]
    have hisDir : isDir root := by simpa [isDir] using hdir
    rw [if_pos hisDir]
    simp only [hsubtree]
    have hfirst : ∀ l s m, sentBelow path (before ++ [⟨path, root⟩]) l m →
        (logic full).wp (system (setting ε format blobs e))
          (sendNode path subtree [separator] none none) (fun answer _ m => answer = (false, none) ∧
            sentBelow path (before ++ [⟨path, root⟩]) l m) s m := by
      intro l s m hl
      exact wp_pure fun s' _ => ⟨rfl, hl⟩
    have hnothing : sentBelow path (before ++ [⟨path, root⟩]) []
        (sending (before ++ [⟨path, root⟩])) := by
      rw [sentBelow, map_nil, filter_nil, append_nil]
    refine wp_bind (wp_mono (wp_walk hsound (loads_of_not_failing path _ (hroot subtree htree))
      (fun id hid => loads_of_not_failing path _ (hload id hid)) hfirst
      (sendNode_visits path _) s hnothing) ?_)
    rintro result s₁ m₁ - ⟨rfl, rfl⟩
    refine wp_pure fun s' _ => ⟨rfl, ?_⟩
    rw [nil_append, append_assoc, singleton_append]
    rfl
  · have hisDir : isDir root = false := by simpa [isDir] using hdir
    obtain rfl := hleaf hdir
    rw [hisDir, if_neg Bool.false_ne_true]
    exact wp_pure fun s' _ => ⟨rfl, rfl⟩

theorem wp_sendRoots (rootPath : Bytes) {tree : Nodes} (hsound : tree.Sound)
    (hload : ∀ id ∈ tree.trees, ¬e.failing id) (before : List Item) (s : State Writer Item) :
    (logic full).wp (system (setting ε format blobs e)) (sendRoots rootPath tree)
      (fun failure _ m => failure = none ∧
        m = sending (before ++ toSend rootPath tree)) s (sending before) := by
  induction tree generalizing before s with
  | nil =>
    refine wp_pure fun s' _ => ⟨rfl, ?_⟩
    rw [toSend, append_nil]
  | cons root children rest _ ihr =>
    obtain ⟨-, hsub, hleaf, hchildren, hrest⟩ := hsound
    have hall : ∀ id tree, (id, tree) ∈ (Nodes.cons root children rest).refs → ¬e.failing id := by
      intro id tree hid
      exact hload id (Nodes.mem_trees.mpr ⟨tree, hid⟩)
    have hroot : ∀ id, treeOf root = some id → ¬e.failing id := by
      intro id hid
      exact hall id children (by simp [Nodes.refs, hid])
    have hbelow : ∀ id ∈ children.trees, ¬e.failing id := by
      intro id hid
      obtain ⟨tree, htree⟩ := Nodes.mem_trees.mp hid
      exact hall id tree (by simp [Nodes.refs, htree])
    have hothers : ∀ id ∈ rest.trees, ¬e.failing id := by
      intro id hid
      obtain ⟨tree, htree⟩ := Nodes.mem_trees.mp hid
      exact hall id tree (by simp [Nodes.refs, htree])
    rw [sendRoots]
    refine wp_bind (wp_mono (wp_sendNodes hsub hleaf hchildren hroot hbelow before s) ?_)
    rintro failure s₁ m₁ - ⟨rfl, rfl⟩
    refine wp_mono (ihr hrest hothers _ s₁) ?_
    rintro failure s₂ m₂ - ⟨rfl, rfl⟩
    refine ⟨rfl, ?_⟩
    rw [toSend, append_assoc, cons_append]

theorem wp_sendTrees (rootPath : Bytes) {tree : Nodes} (hsound : tree.Sound)
    (hload : ∀ id ∈ tree.trees, ¬e.failing id) (s : State Writer Item) :
    (logic (· = toSend rootPath tree)).wp (system (setting ε format blobs e))
      (sendTrees rootPath tree) (fun _ _ _ => True) s (sending []) := by
  rw [sendTrees]
  refine wp_bind (wp_mono (wp_sendRoots rootPath hsound hload [] s) ?_)
  rintro failure s₁ m₁ - ⟨rfl, rfl⟩
  refine wp_close ?_ (fun s => ?_) s₁
  · exact nil_append _
  · exact wp_pure (Q := fun _ _ _ => True) fun s' _ => trivial

end Sender

/-! ## What is written -/

variable {blobs : ID → Bytes} {format : Format} {a a' : Archive} {tree : Nodes} {item : Item}

theorem Loaded.holds {data : Bytes} {buf blob : Slice} {m m' : Memory}
    {entries : Entries} (h : Loaded data buf m blob m')
    (hholds : Holds blobs m entries) (hunused : Unused entries buf) :
    Holds blobs m' entries ∧ Unused entries blob ∧ Stored m' blob := by
  have hsame : ∀ entry ∈ entries, entry.2.content m' = entry.2.content m := by
    intro entry hentry
    obtain ⟨a, ha, harray⟩ := hholds.stored entry hentry
    have hne : some a ≠ buf.array := by
      intro heq
      rw [← harray] at heq
      exact hunused (heq ▸ mem_map_of_mem hentry)
    rw [Slice.content, Slice.content, harray, h.others a ha hne]
  refine ⟨⟨fun entry hentry => ?_, fun entry hentry => ?_, hholds.nodup⟩, ?_, ?_⟩
  · obtain ⟨a, ha, harray⟩ := hholds.stored entry hentry
    exact ⟨a, ha.trans_le h.grows, harray⟩
  · rw [hsame entry hentry, hholds.content entry hentry]
  · intro hmem
    obtain ⟨entry, hentry, harray⟩ := mem_map.mp hmem
    obtain ⟨a, -, ha, hplace⟩ := h.place
    obtain hbuf | hnew := hplace
    · -- the array of the buffer
      rw [ha, ← hbuf] at harray
      exact hunused (harray ▸ mem_map_of_mem hentry)
    · -- a new array
      obtain ⟨b, hb, hstored⟩ := hholds.stored entry hentry
      rw [ha] at harray
      obtain rfl : b = a := Option.some.inj (hstored.symm.trans harray)
      exact absurd hb (Nat.not_lt.mpr hnew)
  · obtain ⟨a, ha, harray, -⟩ := h.place
    exact ⟨a, ha, harray⟩

theorem Archive.entries_of_write {data : Bytes} {entry : Entry} {rest : List Entry}
    (h : a.write format data = some a') (hentries : a.entries = entry :: rest) :
    a'.entries = { entry with data := entry.data ++ data } :: rest := by
  have happend : (a.append data).entries = { entry with data := entry.data ++ data } :: rest := by
    simp only [Archive.append, hentries]
  cases format with
  | tar | zip =>
    simp only [Archive.write] at h
    split at h
    · cases h
    · cases h
      exact happend

theorem Archive.entries_of_addHeader {header : Header} (h : a.addHeader format header = some a') :
    a'.entries = ⟨header, []⟩ :: a.entries := by
  cases format with
  | tar =>
    simp only [Archive.addHeader] at h
    split at h
    · cases h
    · cases h
      rfl
  | zip =>
    cases h
    rfl

theorem Archive.finish_eq_some (h : a.finish format = some a') :
    a' = { a with closed := true } := by
  cases format with
  | tar =>
    simp only [Archive.finish] at h
    split at h
    · cases h
    · exact (Option.some.inj h).symm
  | zip => exact (Option.some.inj h).symm

section Writer

variable {ε : Type} {format : Format} {blobs : ID → Bytes} {e : Environment}
  {full : List Item → Prop}

def contentOf (blobs : ID → Bytes) (ids : List ID) : Bytes := (ids.map blobs).flatten

def Leaves (received : List Item) (good : Writer → Prop)
    (failure : Option (DumpError ε)) (m : Share Writer Item) : Prop :=
  ∃ w, m = reading received w ∧ (failure = none → good w)

def WrittenTo (blobs : ID → Bytes) (entries : List Entry) (w : Writer) : Prop :=
  Holds blobs w.memory w.cache.entries ∧ w.archive.entries = entries

variable {received : List Item} {good : Writer → Prop} {w : Writer}

theorem leaves_failed (err : DumpError ε) : Leaves received good (some err) (reading received w) :=
  ⟨w, rfl, nofun⟩

theorem wp_writeBlob {next : DumpM ε (Option (DumpError ε))} {blob : Slice}
    {id : ID} {entry : Entry} {rest : List Entry} (hblob : blob.content w.memory = blobs id)
    (hw : WrittenTo blobs (entry :: rest) w) (hnext : ∀ w', w'.cache = w.cache →
      WrittenTo blobs ({ entry with data := entry.data ++ blobs id } :: rest) w' →
      ∀ s, (logic full).wp (system (setting ε format blobs e)) next
        (fun failure _ => Leaves received good failure) s (reading received w'))
    (s : State Writer Item) : (logic full).wp (system (setting ε format blobs e))
      (consume (WriterOp.writeBlob blob) >>= fun
        | some err => pure (some (.write err))
        | none => next) (fun failure _ => Leaves received good failure) s (reading received w) := by
  refine wp_consume (fun res w₁ hwritten s => ?_) s
  obtain ⟨archive, rfl, hsuccess⟩ := hwritten
  cases res with
  | some err => exact wp_pure fun s' _ => leaves_failed _
  | none =>
    have hwrite := hsuccess rfl
    rw [hblob] at hwrite
    exact hnext { w with archive := archive } rfl ⟨hw.1, Archive.entries_of_write hwrite hw.2⟩ s

theorem wp_writeNode (ids : List ID) {buf : Slice} {entry : Entry}
    {rest : List Entry} (hw : WrittenTo blobs (entry :: rest) w)
    (hbuf : Unused w.cache.entries buf) (s : State Writer Item) :
    (logic full).wp (system (setting ε format blobs e)) (writeNode ids buf)
      (fun failure _ => Leaves received
        (WrittenTo blobs ({ entry with data := entry.data ++ contentOf blobs ids } :: rest))
        failure) s (reading received w) := by
  induction ids generalizing buf w entry s with
  | nil =>
    refine wp_pure fun s' _ => ⟨w, rfl, fun _ => ?_⟩
    rw [contentOf, map_nil, flatten_nil, append_nil]
    exact hw
  | cons id ids ih =>
    have hcontent : entry.data ++ contentOf blobs (id :: ids) =
        entry.data ++ blobs id ++ contentOf blobs ids := by
      rw [contentOf, map_cons, flatten_cons, append_assoc]
      rfl
    rw [writeNode, hcontent]
    refine wp_consume (fun found w₁ hget s => ?_) s
    obtain ⟨rfl, rfl⟩ := hget
    -- looking up only changes the order of the cache
    have hperm := Cache.get_perm id w.cache
    have hholds := hw.1.perm hperm.symm
    have hbuf₁ := hbuf.mono hperm.subset
    cases hfound : (w.cache.get id).1 with
    | some blob =>
      have hblob := hw.1.content _ (Cache.mem_of_get hfound)
      refine wp_writeBlob (w := { w with cache := (w.cache.get id).2 }) hblob
        ⟨hholds, hw.2⟩ (fun w' hcache hw' s => ?_) s
      exact ih hw' (hcache ▸ hbuf₁) s
    | none =>
      refine wp_consume (fun res w₂ hload s => ?_) s
      obtain ⟨m, rfl, hload⟩ := hload
      cases res with
      | error err => exact wp_pure fun s' _ => leaves_failed _
      | ok blob =>
        have hloaded := hload blob rfl
        obtain ⟨hholds₂, hblob, hstored⟩ := hloaded.holds hholds hbuf₁
        refine wp_consume (fun old w₃ hadd s => ?_) s
        obtain ⟨cache, hadd, rfl⟩ := hadd
        obtain ⟨hholds₃, hold⟩ := Cache.add_spec hholds₂ hstored hloaded.content hblob hadd
        refine wp_writeBlob (w := ⟨m, cache, w.archive⟩) hloaded.content
          ⟨hholds₃, hw.2⟩ (fun w' hcache hw' s => ?_) s
        exact ih hw' (hcache ▸ hold) s

def Matches (blobs : ID → Bytes) (item : Item) (entry : Entry) : Prop :=
  (∃ relPath, relToRoot item.path = some relPath ∧
    entry.header.name = entryName item.node relPath) ∧
  (isFile item.node → entry.data = contentOf blobs item.node.content)

def Dumps (blobs : ID → Bytes) (received : List Item) (w : Writer) : Prop :=
  Holds blobs w.memory w.cache.entries ∧
    List.Forall₂ (Matches blobs) received.reverse w.archive.entries

/-- The function writes one entry for the node. -/
def Appends (format : Format) (blobs : ID → Bytes) (e : Environment) (full : List Item → Prop)
    (dumpNode : Item → DumpM ε (Option (DumpError ε))) : Prop :=
  ∀ item received before w s, WrittenTo blobs before w →
    (logic full).wp (system (setting ε format blobs e)) (dumpNode item)
      (fun failure _ => Leaves received (fun w' => ∃ entry, Matches blobs item entry ∧
        WrittenTo blobs (entry :: before) w') failure) s (reading received w)

theorem wp_writeHeader {f : Option ε → DumpM ε (Option (DumpError ε))}
    {header : Header} {before : List Entry} (hw : WrittenTo blobs before w)
    (hfailed : ∀ err, ∃ err', f (some err) = pure (some err'))
    (hnext : ∀ w', WrittenTo blobs (⟨header, []⟩ :: before) w' →
      ∀ s, (logic full).wp (system (setting ε format blobs e)) (f none)
        (fun failure _ => Leaves received good failure) s (reading received w'))
    (s : State Writer Item) : (logic full).wp (system (setting ε format blobs e))
      (consume (WriterOp.writeHeader header) >>= f)
      (fun failure _ => Leaves received good failure) s (reading received w) := by
  refine wp_consume (fun res w₁ hwritten s => ?_) s
  obtain ⟨archive, rfl, hsuccess⟩ := hwritten
  cases res with
  | some err =>
    obtain ⟨err', heq⟩ := hfailed err
    rw [heq]
    exact wp_pure fun s' _ => leaves_failed err'
  | none =>
    refine hnext { w with archive := archive } ⟨hw.1, ?_⟩ s
    rw [← hw.2]
    exact Archive.entries_of_addHeader (hsuccess rfl)

theorem wp_writeContent {item : Item} {relPath : Bytes} {header : Header} {before : List Entry}
    (hrel : relToRoot item.path = some relPath) (hname : header.name = entryName item.node relPath)
    (hw : WrittenTo blobs (⟨header, []⟩ :: before) w) (s : State Writer Item) :
    (logic full).wp (system (setting ε format blobs e)) (writeNode item.node.content noBuffer)
      (fun failure _ => Leaves received (fun w' => ∃ entry, Matches blobs item entry ∧
        WrittenTo blobs (entry :: before) w') failure) s (reading received w) := by
  refine wp_mono (wp_writeNode item.node.content hw hw.1.unused_noBuffer s) ?_
  rintro failure s' m - ⟨w', rfl, hgood⟩
  refine ⟨w', rfl, fun hnone => ⟨_, ⟨⟨relPath, hrel, hname⟩, fun _ => ?_⟩, hgood hnone⟩⟩
  exact nil_append _

theorem dumpNodeTar_appends (linkTarget : TreeNode → Bytes) :
    Appends (ε := ε) format blobs e full (dumpNodeTar linkTarget) := by
  intro item received before w s hw
  rw [dumpNodeTar]
  cases hrel : relToRoot item.path with
  | none => exact wp_pure fun s' _ => leaves_failed _
  | some relPath =>
    refine wp_writeHeader hw (fun err => ⟨.tarHeader err, rfl⟩) (fun w' hw' s => ?_) s
    exact wp_writeContent hrel rfl hw' s

theorem dumpNodeZip_appends (linkTarget : TreeNode → Bytes) :
    Appends (ε := ε) format blobs e full (dumpNodeZip linkTarget) := by
  intro item received before w s hw
  rw [dumpNodeZip]
  cases hrel : relToRoot item.path with
  | none => exact wp_pure fun s' _ => leaves_failed _
  | some relPath =>
    refine wp_writeHeader hw (fun err => ⟨.zipHeader err, rfl⟩) (fun w' hw' s => ?_) s
    by_cases hlink : isLink item.node
    · -- the data of a link is its target
      rw [if_pos hlink]
      refine wp_consume (fun res w₁ hwritten s => ?_) s
      obtain ⟨archive, rfl, hsuccess⟩ := hwritten
      cases res with
      | some err => exact wp_pure fun s' _ => leaves_failed _
      | none =>
        refine wp_pure fun s' _ => ⟨{ w' with archive := archive }, rfl, fun _ => ?_⟩
        have hentries := Archive.entries_of_write (hsuccess rfl) hw'.2
        refine ⟨_, ⟨⟨relPath, hrel, rfl⟩, fun hfile => ?_⟩, hw'.1, hentries⟩
        simp only [isFile, isLink, decide_eq_true_eq] at hfile hlink
        rw [hfile] at hlink
        cases hlink
    · rw [if_neg hlink]
      exact wp_writeContent hrel rfl hw' s

def Returned (full : List Item → Prop) (blobs : ID → Bytes)
    (value : Option (DumpError ε)) (received : List Item) (w : Writer) : Prop :=
  value = none → full received ∧ Dumps blobs received w ∧ w.archive.closed

theorem wp_dumpRound {dumpNode : Item → DumpM ε (Option (DumpError ε))}
    (happends : Appends format blobs e full dumpNode) (received : List Item) (w : Writer)
    (hw : Dumps blobs received w) (s : State Writer Item) :
    (logic full).wp (system (setting ε format blobs e)) (dumpRound dumpNode)
      (Logic.loopPost (Reads (Dumps blobs))
        fun value _ => Reads (Returned full blobs value)) s (reading received w) := by
  rw [dumpRound]
  refine wp_receive (fun item s => ?_) (fun hfull s => ?_) s
  · refine wp_bind (wp_mono (happends item (received ++ [item])
      w.archive.entries w s ⟨hw.1, rfl⟩) ?_)
    rintro failure s₁ m - ⟨w', rfl, hgood⟩
    cases failure with
    | some err => exact wp_pure fun s' _ => ⟨_, w', rfl, nofun⟩
    | none =>
      obtain ⟨entry, hentry, hholds, hentries⟩ := hgood rfl
      refine wp_pure fun s' _ => ⟨_, w', rfl, hholds, ?_⟩
      rw [hentries, reverse_append, reverse_singleton, singleton_append]
      exact List.Forall₂.cons hentry hw.2
  · refine wp_consume (fun res w₁ hwritten s => ?_) s
    obtain ⟨archive, rfl, hsuccess⟩ := hwritten
    refine wp_pure fun s' _ => ⟨received, { w with archive := archive }, rfl, ?_⟩
    intro hnone
    obtain rfl : res = none := Option.map_eq_none_iff.mp hnone
    obtain rfl := Archive.finish_eq_some (hsuccess rfl)
    exact ⟨hfull, hw, rfl⟩

theorem wp_dumpFormat (linkTarget : TreeNode → Bytes) (received : List Item)
    (w : Writer) (hw : Dumps blobs received w) (s : State Writer Item) :
    (logic full).wp (system (setting ε format blobs e)) (dumpFormat linkTarget format)
      (Logic.loopPost (Reads (Dumps blobs))
        fun value _ => Reads (Returned full blobs value)) s (reading received w) := by
  cases format with
  | tar => exact wp_dumpRound (dumpNodeTar_appends linkTarget) received w hw s
  | zip => exact wp_dumpRound (dumpNodeZip_appends linkTarget) received w hw s

end Writer

/-! ## Complete archives -/

/-- The path that the name of an entry stands for. -/
def entryPath (entry : Entry) : Bytes := clean (separator :: entry.header.name)

/-- The archive has one entry for each file, directory and link, and the data of the
files. -/
def Complete (blobs : ID → Bytes) (items : List Item) (archive : Archive) : Prop :=
  ∀ item ∈ items, dumped item.node →
    ∃ entry, archive.entries.filter (entryPath · = item.path) = [entry] ∧
      (isFile item.node → entry.data = contentOf blobs item.node.content)

theorem join_clean (first second : Bytes) :
    join first second = [] ∨ clean (join first second) = join first second := by
  rw [join]
  split
  · exact Or.inr (clean_clean _)
  · split
    · exact Or.inr (clean_clean _)
    · exact Or.inl rfl

theorem clean_of_unfolded {rootPath : Bytes} (h : item ∈ unfolded rootPath tree) :
    item.path = [] ∨ clean item.path = item.path := by
  induction tree with
  | nil => cases h
  | cons root children rest _ ihr =>
    obtain rfl | h := mem_cons.mp h
    · exact join_clean rootPath root.name
    · obtain hbelow | hrest := mem_append.mp h
      · obtain ⟨⟨p, node⟩, -, rfl⟩ := mem_map.mp hbelow
        exact join_clean _ p
      · exact ihr hrest

theorem clean_relToRoot {path relPath : Bytes} (hclean : clean path = path)
    (hrel : relToRoot path = some relPath) :
    relPath ≠ [] ∧ clean (separator :: relPath) = path := by
  rw [relToRoot, hclean] at hrel
  split at hrel
  · rename_i hroot
    obtain rfl := Option.some.inj hrel
    rw [hroot]
    exact ⟨by decide, by decide⟩
  · rename_i hroot
    split at hrel
    · rename_i habs
      obtain rfl := Option.some.inj hrel
      cases path with
      | nil => cases habs
      | cons first rest =>
        obtain rfl : first = separator := by simpa [isAbs] using habs
        refine ⟨?_, hclean⟩
        rintro (rfl : rest = [])
        exact hroot rfl
    · cases hrel

theorem Matches.entryPath_eq {entry : Entry} (h : Matches blobs item entry)
    (hpath : item.path = [] ∨ clean item.path = item.path) : entryPath entry = item.path := by
  obtain ⟨⟨relPath, hrel, hname⟩, -⟩ := h
  obtain hnil | hclean := hpath
  · have hnone : relToRoot [] = none := by decide
    rw [hnil, hnone] at hrel
    cases hrel
  · obtain ⟨hne, hentry⟩ := clean_relToRoot hclean hrel
    rw [entryPath, hname, entryName]
    split
    · rw [← cons_append, clean_append_separator (cons_ne_nil _ _), hentry]
    · exact hentry

theorem toSend_sublist (rootPath : Bytes) (tree : Nodes) :
    (toSend rootPath tree).Sublist (unfolded rootPath tree) := by
  induction tree with
  | nil => exact List.Sublist.refl []
  | cons root children rest _ ihr => exact (filter_sublist.append ihr).cons_cons _

theorem mem_toSend {rootPath : Bytes} (h : item ∈ unfolded rootPath tree)
    (hitem : dumped item.node) : item ∈ toSend rootPath tree := by
  induction tree with
  | nil => cases h
  | cons root children rest _ ihr =>
    obtain rfl | h := mem_cons.mp h
    · exact mem_cons_self
    · refine mem_cons_of_mem _ (mem_append.mpr ?_)
      obtain hbelow | hrest := mem_append.mp h
      · exact Or.inl (mem_filter.mpr ⟨hbelow, hitem⟩)
      · exact Or.inr (ihr hrest)

/-- With different paths each entry is found by the path of its node. -/
theorem filter_entryPath {items : List Item} {entries : List Entry}
    (h : List.Forall₂ (Matches blobs) items entries)
    (hpaths : ∀ item ∈ items, item.path = [] ∨ clean item.path = item.path)
    (hnodup : (items.map Item.path).Nodup) (hitem : item ∈ items) :
    ∃ entry, entries.filter (entryPath · = item.path) = [entry] ∧
      Matches blobs item entry := by
  induction h with
  | nil => cases hitem
  | @cons first entry rest entries hfirst hrest ih =>
    obtain ⟨hother, hnodup⟩ := nodup_cons.mp hnodup
    have hpath := hfirst.entryPath_eq (hpaths first mem_cons_self)
    have htail : ∀ other ∈ rest, other.path = [] ∨ clean other.path = other.path :=
      fun other h => hpaths other (mem_cons_of_mem _ h)
    obtain rfl | hitem := mem_cons.mp hitem
    · -- no other entry has the path
      have hnone : entries.filter (entryPath · = item.path) = [] := by
        rw [filter_eq_nil_iff]
        intro other hmem hsame
        obtain ⟨n, hn, rfl⟩ := mem_iff_getElem.mp hmem
        have hlen : n < rest.length := hrest.length_eq ▸ hn
        have hmatch := List.Forall₂.get hrest hlen hn
        have hentry := hmatch.entryPath_eq (htail _ (get_mem _ _))
        refine hother (mem_map.mpr ⟨_, get_mem rest ⟨n, hlen⟩, ?_⟩)
        exact hentry.symm.trans (of_decide_eq_true hsame)
      refine ⟨entry, ?_, hfirst⟩
      rw [filter_cons_of_pos (by simpa using hpath), hnone]
    · obtain ⟨found, hfound, hmatch⟩ := ih htail hnodup hitem
      refine ⟨found, ?_, hmatch⟩
      have hne : entryPath entry ≠ item.path := by
        rw [hpath]
        intro heq
        exact hother (heq ▸ mem_map_of_mem hitem)
      rw [filter_cons_of_neg (by simpa using hne), hfound]

/-- A dump that returns without an error is complete, if no tree fails to load, the
context is not cancelled while the sender works, every node has a type, every
directory a subtree, and the paths are different. -/
theorem dump_complete {ε : Type} (blobs : ID → Bytes) (d : Dumper blobs)
    (linkTarget : TreeNode → Bytes) (format : Format) (rootPath : Bytes) (tree : Nodes)
    (e : Environment) (hload : ∀ id ∈ tree.trees, ¬e.failing id)
    (hcalm : ∀ s, e.mayCancel s → s.closed) (hsound : tree.Sound)
    (hpaths : ((unfolded rootPath tree).map Item.path).Nodup)
    (pool : Pool (State Writer Item) (Op SenderOp WriterOp Item)
      (Op.Res (SenderOp.Res ε) (WriterOp.Res ε)) (Option (DumpError ε)) Party)
    (hsteps : Relation.ReflTransGen (Pool.Step (system (setting ε format blobs e)))
      (dumpTree d linkTarget format rootPath tree) pool)
    (hreturned : (pool.threads .consumer).current = .ret (some none)) :
    pool.state.own.archive.closed ∧
      Complete blobs (unfolded rootPath tree) pool.state.own.archive := by
  have hstart : Dumps blobs [] ⟨d.memory, d.cache, Archive.empty⟩ := ⟨d.holds, List.Forall₂.nil⟩
  obtain ⟨hfull, ⟨-, hentries⟩, hclosed⟩ :=
    Pipe.returned hcalm (wp_sendTrees rootPath hsound hload)
      (wp_dumpFormat linkTarget) hstart hsteps hreturned rfl
  refine ⟨hclosed, fun item hitem hdumped => ?_⟩
  rw [hfull] at hentries
  have hsub := toSend_sublist rootPath tree
  have hclean : ∀ item ∈ (toSend rootPath tree).reverse,
      item.path = [] ∨ clean item.path = item.path := by
    intro item hitem
    exact clean_of_unfolded (hsub.subset (mem_reverse.mp hitem))
  have hnodup : (((toSend rootPath tree).reverse).map Item.path).Nodup := by
    rw [map_reverse, nodup_reverse]
    exact hpaths.sublist (hsub.map _)
  obtain ⟨entry, hentry, hmatch⟩ := filter_entryPath hentries hclean hnodup
    (mem_reverse.mpr (mem_toSend hitem hdumped))
  exact ⟨entry, hentry, hmatch.2⟩

/-! ## Sample runs -/

def sampleTree : Nodes :=
  .cons (sampleDir (ascii "d") (.ofNat 1)) (.cons (sampleFile (ascii "f") 0 []) .nil .nil) .nil

def sampleFailure : Environment where
  failing id := id = .ofNat 1
  mayCancel _ := False

abbrev sampleSetting (blobs : ID → Bytes) (e : Environment) :
    Setting Writer Item (SenderOp.Res Unit) (WriterOp.Res Unit) := setting Unit .tar blobs e

/-- Each blob is loaded into an array of its own. -/
def loadNew (data : Bytes) (m : Memory) : Slice × Memory :=
  (⟨some m.arrays.length, data.length⟩, ⟨m.arrays ++ [data]⟩)

theorem loaded_loadNew {data : Bytes} {buf : Slice} (hbuf : buf.array = none) (m : Memory) :
    Loaded data buf m (loadNew data m).1 (loadNew data m).2 where
  grows := by simp [loadNew]
  others a ha _ := by simp [loadNew, Memory.array, getElem?_append_left ha]
  sameCap := by simp [Slice.cap, hbuf, Memory.array]
  place := ⟨m.arrays.length, by simp [loadNew], rfl, .inr le_rfl⟩
  content := by simp [loadNew, Slice.content, Memory.array]

def playback (blobs : ID → Bytes) (e : Environment) {failure : ID → Option Unit}
    (hfailure : ∀ id, failure id = none ∨ e.failing id) :
    Playback (system (sampleSetting blobs e)) where
  answer
  | .produce (.loadTree id), s => some ⟨(failure id, s), hfailure id, rfl⟩
  | .send value, s =>
    if hroom : s.closed = false ∧ s.queue.length < 10 then
      some ⟨(true, { s with queue := s.queue ++ [value] }), .inl ⟨rfl, hroom.1, hroom.2, rfl⟩⟩
    else none
  | .close, s => some ⟨((), { s with closed := true }), rfl⟩
  | .consume (.cacheGet id), s =>
    some ⟨((s.own.cache.get id).1,
      { s with own := { s.own with cache := (s.own.cache.get id).2 } }), _, ⟨rfl, rfl⟩, rfl⟩
  | .consume (.loadBlob id buf), s =>
    let loaded := loadNew (blobs id) s.own.memory
    if hbuf : buf.array = none then
      some ⟨(.ok loaded.1, { s with own := { s.own with memory := loaded.2 } }),
        _, ⟨_, rfl, by rintro _ ⟨⟩; exact loaded_loadNew hbuf _⟩, rfl⟩
    else none
  | .consume (.cacheAdd id blob), s =>
    (s.own.cache.add s.own.memory id blob).attach.map fun ⟨added, hadded⟩ =>
      ⟨(added.1, { s with own := { s.own with cache := added.2 } }), _, ⟨added.2, hadded, rfl⟩, rfl⟩
  | .consume (.writeBlob blob), s =>
    (s.own.archive.write .tar (blob.content s.own.memory)).attach.map fun ⟨archive, h⟩ =>
      ⟨(none, { s with own := { s.own with archive := archive } }),
        _, ⟨archive, rfl, fun _ => h⟩, rfl⟩
  | .consume (.writeHeader header), s =>
    (s.own.archive.addHeader .tar header).attach.map fun ⟨archive, h⟩ =>
      ⟨(none, { s with own := { s.own with archive := archive } }),
        _, ⟨archive, rfl, fun _ => h⟩, rfl⟩
  | .consume .close, s =>
    (s.own.archive.finish .tar).attach.map fun ⟨archive, h⟩ =>
      ⟨(none, { s with own := { s.own with archive := archive } }),
        _, ⟨archive, rfl, fun _ => h⟩, rfl⟩
  | .receive, s =>
    match hqueue : s.queue with
    | value :: rest =>
      some ⟨(some value, { s with received := s.received ++ [value], queue := rest }),
        .inl ⟨value, rest, hqueue, rfl, rfl⟩⟩
    | [] =>
      if hclosed : s.closed then some ⟨(none, s), .inr ⟨hqueue, hclosed, rfl, rfl⟩⟩ else none
  | _, _ => none

deriving instance DecidableEq for DumpError

/-- The consumer receives the nodes, and then finds the channel closed. -/
def sampleTurns (count : Nat) : List (Turn Party) :=
  .thread .producer :: replicate (count + 1) (.thread .consumer)

theorem sampleFailure_failing (id : ID) :
    (if id = .ofNat 1 then some () else none) = none ∨ sampleFailure.failing id := by
  by_cases hid : id = .ofNat 1
  · exact Or.inr hid
  · exact Or.inl (if_neg hid)

/-- The file below the directory is missing, and no error is returned. -/
theorem incomplete_dump_succeeds :
    ∃ pool, Relation.ReflTransGen (Pool.Step (system (sampleSetting (fun _ => []) sampleFailure)))
        (dumpTree (Dumper.new fun _ => []) (fun _ => []) .tar [separator] sampleTree)
        pool ∧
      (pool.threads .consumer).current = .ret (some none) ∧
      ¬Complete (fun _ => []) (unfolded [separator] sampleTree)
        pool.state.own.archive := by
  obtain ⟨pool, hsteps, hreturned, hnone⟩ := Pool.exists_steps
    (playback (fun _ => []) sampleFailure sampleFailure_failing)
    (dumpTree (Dumper.new fun _ => []) (fun _ => []) .tar [separator] sampleTree) (sampleTurns 1)
    (fun pool => pool.result? .consumer = some none ∧
      (pool.state.own.archive.entries.filter (entryPath · = ascii "/d/f")).length = 0)
    (by decide +kernel)
  refine ⟨pool, hsteps, Pool.current_of_result? hreturned, fun hcomplete => ?_⟩
  obtain ⟨entry, hentry, -⟩ := hcomplete
    ⟨ascii "/d/f", sampleFile (ascii "f") 0 []⟩ (by decide) (by decide)
  rw [hentry] at hnone
  cases hnone

def sampleCalm : Environment where
  failing _ := False
  mayCancel _ := False

/-- A blob for each of the bytes. -/
def sampleBlobs (id : ID) : Bytes := id.bytes.drop (idSize - 1)

/-- Two files, one of which has a blob twice that the other one has as well. -/
def sampleFiles : Nodes :=
  .cons (sampleDir (ascii "d") (.ofNat 1))
    (.cons (sampleFile (ascii "f") 3 [.ofNat 7, .ofNat 8, .ofNat 7]) .nil .nil)
    (.cons (sampleFile (ascii "g") 1 [.ofNat 7]) .nil .nil)

theorem dump_complete_sample :
    ∃ pool, Relation.ReflTransGen
        (Pool.Step (system (sampleSetting sampleBlobs sampleCalm)))
        (dumpTree (Dumper.new sampleBlobs) (fun _ => []) .tar [separator] sampleFiles)
        pool ∧
      (pool.threads .consumer).current = .ret (some none) ∧
      (pool.state.own.archive.entries.map Entry.data = [[7], [7, 8, 7], []]) ∧
      pool.state.own.archive.closed ∧
      Complete sampleBlobs (unfolded [separator] sampleFiles)
        pool.state.own.archive := by
  obtain ⟨pool, hsteps, hreturned, hdata⟩ := Pool.exists_steps (playback sampleBlobs sampleCalm
      (fun _ => Or.inl rfl : ∀ id, (fun _ => none) id = none ∨ _))
    (dumpTree (Dumper.new sampleBlobs) (fun _ => []) .tar [separator] sampleFiles) (sampleTurns 3)
    (fun pool => pool.result? .consumer = some none ∧
      pool.state.own.archive.entries.map Entry.data = [[7], [7, 8, 7], []]) (by decide +kernel)
  replace hreturned := Pool.current_of_result? hreturned
  have hsound : sampleFiles.Sound := by simp [sampleFiles, Nodes.Sound, sampleDir, sampleFile]
  refine ⟨pool, hsteps, hreturned, hdata, ?_⟩
  exact dump_complete sampleBlobs (Dumper.new sampleBlobs) (fun _ => []) .tar
    [separator] sampleFiles sampleCalm (fun _ _ => id) (fun _ => False.elim) hsound
    (by decide) pool hsteps hreturned

end Rapi.Dump
