import Rapi.Cmd.SnapshotInfo
import Rapi.Foundation.Glob
import Rapi.Foundation.Store

/-!
# Restoring all versions of files

`restoreAllVersions` walks over all snapshots and writes each file whose name
matches a pattern to the target directory, once for each list of blobs.  The
file is named after the first digits of a hash of the list and the name of the
node, and a long name is cut at its beginning.  Files are created with
truncation.
-/

namespace Rapi.Cmd

open Foundation Foundation.FilePath Restic Walker List

/-! ## The names of the files -/

def outputName (fid : ID) (name : Bytes) : Bytes :=
  let fname := (hexOf fid.bytes).take 8 ++ ascii "_" ++ name
  if 254 ≤ fname.length then ascii "+" ++ fname.drop (fname.length - 254)
  else fname

/-! ## The command -/

/-- What the command works with; `create` tells whether `os.Create` succeeds. -/
structure RescueEnv (ε : Type) where
  sum256 : Bytes → ID
  pattern : Bytes
  targetDir : Bytes
  loadBlob : ID → Except ε Bytes
  create : Bytes → Bool

structure Rescued where
  filesFound : Finset ID := ∅
  dir : Store Bytes Bytes := []

inductive RescueError (ε : Type)
  | node (err : ε)
  | panics

section Model

variable {ε : Type} (env : RescueEnv ε)

/-- The loop over the blobs, with what was written before. -/
def writeBlobs : List ID → Bytes → Option ε × Bytes
  | [], written => (none, written)
  | rid :: rest, written =>
    match env.loadBlob rid with
    | .error err => (some err, written)
    | .ok buf => writeBlobs rest (written ++ buf)

/-- The result is missing if the file cannot be created. -/
def restoreFile (fid : ID) (name : Bytes) (blobIDs : List ID)
    (dir : Store Bytes Bytes) : Option (Option ε × Store Bytes Bytes) :=
  let dest := join env.targetDir (outputName fid name)
  if env.create dest then
    let (err, content) := writeBlobs env blobIDs []
    some (err, dir.save dest content)
  else none

/-- A panic ends the walk like an error. -/
def rescueWalkTree : WalkFunc (StateM Rescued) (RescueError ε)
  | _, _, _, some nodeErr => return (true, some (.failed nodeErr))
  | _, _, none, none => return (true, none)
  | _, _, some node, none => do
      if node.type ≠ .file then return (true, none)
      else
        let fid := makeFileIDByContents env.sum256 node.toNode
        let s ← get
        if fid ∈ s.filesFound then return (true, none)
        else if Glob.matches? env.pattern node.name = some true then
          match restoreFile env fid node.name node.content s.dir with
          | none => return (true, some (.failed .panics))
          | some (_, dir) =>
            set ({ filesFound := insert fid s.filesFound, dir := dir } : Rescued)
            return (true, none)
        else return (true, none)

/-- A snapshot as `ForAllSnapshots` passes it on. -/
inductive Call (ε : Type)
  | failed (err : ε)
  | nilTree
  | tree (root : ID) (nodes : Nodes)

/-- The calls that `ForAllSnapshots` makes, in their order.  Their errors are not
looked at; whether there are calls after an error depends on the goroutines. -/
def rescueCalls (loadTree : ID → StateM Rescued (Option (RescueError ε))) :
    List (Call ε) → StateM Rescued Unit
  | [] => return ()
  | .tree root nodes :: rest => do
      match ← walk loadTree (rescueWalkTree env) root nodes ∅ with
      | some (.callback .panics) => return ()
      | _ => rescueCalls loadTree rest
  | _ :: rest => rescueCalls loadTree rest

/-- `restoreAllVersions`, from the check of the pattern on. -/
def restoreAllVersions (loadTree : ID → StateM Rescued (Option (RescueError ε)))
    (calls : List (Call ε)) : StateM Rescued Unit :=
  if env.pattern = [] then return () else rescueCalls env loadTree calls

end Model

/-! ## Output names are file names -/

theorem hexDigit_plain {n : Nat} (h : n < 16) : hexDigit n ≠ separator ∧ hexDigit n ≠ 0 := by
  revert h
  revert n
  decide

theorem mem_hexOf {data : Bytes} {b : UInt8} (h : b ∈ hexOf data) : b ≠ separator ∧ b ≠ 0 := by
  obtain ⟨byte, -, hb⟩ := mem_flatMap.mp h
  have hbyte := byte.toNat_lt
  simp only [mem_cons, not_mem_nil, or_false] at hb
  obtain rfl | rfl := hb
  · exact hexDigit_plain (by omega)
  · exact hexDigit_plain (by omega)

def digits (fid : ID) : Bytes := (hexOf fid.bytes).take 8

theorem length_digits (fid : ID) : (digits fid).length = 8 := by
  rw [digits, length_take, length_hexOf, fid.length_bytes]
  decide

variable {name : Bytes}

theorem outputName_short {fid : ID} (h : name.length < 245) :
    outputName fid name = digits fid ++ ascii "_" ++ name := by
  have hlength : (digits fid ++ ascii "_" ++ name).length = 9 + name.length := by
    rw [length_append, length_append, length_digits]
    rfl
  refine if_neg (?_ : ¬254 ≤ (digits fid ++ ascii "_" ++ name).length)
  omega

theorem outputName_long {fid : ID} (h : 245 ≤ name.length) : outputName fid name = ascii "+" ++
      (digits fid ++ ascii "_" ++ name).drop (name.length - 245) := by
  have hlength : (digits fid ++ ascii "_" ++ name).length = 9 + name.length := by
    rw [length_append, length_append, length_digits]
    rfl
  have hdrop : (digits fid ++ ascii "_" ++ name).length - 254 = name.length - 245 := by omega
  rw [← hdrop]
  refine if_pos (?_ : 254 ≤ (digits fid ++ ascii "_" ++ name).length)
  omega

/-- A name that the file system of a file accepts. -/
structure FileName (name : Bytes) : Prop extends Proper name where
  no_nul : 0 ∉ name

theorem length_outputName (fid : ID) (name : Bytes) :
    9 ≤ (outputName fid name).length ∧ (outputName fid name).length ≤ 255 := by
  have hbar : (ascii "_").length = 1 := by decide
  have hplus : (ascii "+").length = 1 := by decide
  by_cases h : name.length < 245
  · rw [outputName_short h]
    simp only [length_append, length_digits, hbar]
    omega
  · rw [outputName_long (Nat.not_lt.mp h)]
    simp only [length_append, length_drop, length_digits, hbar, hplus]
    omega

/-- Two files get one name: the digits and the names are the same, or the names
are so long that the rest of them has to be the same. -/
def Clash (fid fid' : ID) (name name' : Bytes) : Prop :=
  name.length < 245 ∧ name = name' ∧ digits fid = digits fid' ∨
  245 ≤ name.length ∧ 245 ≤ name'.length ∧
    (digits fid ++ ascii "_" ++ name).drop (name.length - 245) =
      (digits fid' ++ ascii "_" ++ name').drop (name'.length - 245)

theorem outputName_eq_iff {fid fid' : ID} {name' : Bytes} :
    outputName fid name = outputName fid' name' ↔ Clash fid fid' name name' := by
  have hbar : (ascii "_").length = 1 := by decide
  have hplus : (ascii "+").length = 1 := by decide
  by_cases h : name.length < 245
  · by_cases h' : name'.length < 245
    · rw [outputName_short h, outputName_short h', append_assoc, append_assoc]
      constructor
      · intro heq
        obtain ⟨hdigits, hrest⟩ := append_inj heq
          ((length_digits fid).trans (length_digits fid').symm)
        exact .inl ⟨h, append_cancel_left hrest, hdigits⟩
      · rintro (⟨-, rfl, hdigits⟩ | ⟨hlong, -⟩)
        · rw [hdigits]
        · omega
    · -- a cut name has 255 bytes
      rw [outputName_short h, outputName_long (Nat.not_lt.mp h')]
      constructor
      · intro heq
        have hlength := congrArg length heq
        simp only [length_append, length_drop, length_digits, hbar, hplus] at hlength
        omega
      · rintro (⟨-, rfl, -⟩ | ⟨hlong, -⟩)
        · exact absurd h h'
        · omega
  · by_cases h' : name'.length < 245
    · rw [outputName_long (Nat.not_lt.mp h), outputName_short h']
      constructor
      · intro heq
        have hlength := congrArg length heq
        simp only [length_append, length_drop, length_digits, hbar, hplus] at hlength
        omega
      · rintro (⟨hshort, -⟩ | ⟨-, hlong, -⟩)
        · exact absurd hshort h
        · omega
    · rw [outputName_long (Nat.not_lt.mp h), outputName_long (Nat.not_lt.mp h'), append_right_inj]
      constructor
      · intro heq
        exact .inr ⟨Nat.not_lt.mp h, Nat.not_lt.mp h', heq⟩
      · rintro (⟨hshort, -⟩ | ⟨-, -, heq⟩)
        · exact absurd hshort h
        · exact heq

theorem mem_outputName {fid : ID} (hname : FileName name) {b : UInt8}
    (h : b ∈ outputName fid name) : b ≠ separator ∧ b ≠ 0 := by
  have hbar : ∀ b ∈ ascii "_", b ≠ separator ∧ b ≠ 0 := by
    rw [show ascii "_" = [95] by decide, forall_mem_singleton]
    decide
  have hplus : ∀ b ∈ ascii "+", b ≠ separator ∧ b ≠ 0 := by
    rw [show ascii "+" = [43] by decide, forall_mem_singleton]
    decide
  have hplain : ∀ b ∈ (hexOf fid.bytes).take 8 ++ ascii "_" ++ name, b ≠ separator ∧ b ≠ 0 := by
    intro b hb
    obtain (hb | hb) | hb := (mem_append.mp hb).imp_left mem_append.mp
    · exact mem_hexOf (mem_of_mem_take hb)
    · exact hbar b hb
    · exact ⟨fun heq => hname.unseparated (heq ▸ hb), fun heq => hname.no_nul (heq ▸ hb)⟩
  unfold outputName at h
  dsimp only at h
  split at h
  · obtain hb | hb := mem_append.mp h
    · exact hplus b hb
    · exact hplain b (mem_of_mem_drop hb)
  · exact hplain b h

theorem outputName_fileName {fid : ID} (hname : FileName name) :
    FileName (outputName fid name) := by
  have hlength := (length_outputName fid name).1
  refine ⟨⟨?_, ?_, ?_, ?_⟩, ?_⟩
  · intro h
    rw [h] at hlength
    simp at hlength
  · intro h
    rw [h] at hlength
    revert hlength
    decide
  · intro h
    rw [h] at hlength
    revert hlength
    decide
  · exact fun h => (mem_outputName hname h).1 rfl
  · exact fun h => (mem_outputName hname h).2 rfl

/-! ## What is written -/

/-- The elements that are the first ones with their key. -/
def firstsBy {α κ : Type} [DecidableEq κ] (key : α → κ) : List α → Finset κ → List α
  | [], _ => []
  | a :: rest, seen =>
    if key a ∈ seen then firstsBy key rest seen
    else a :: firstsBy key rest (insert (key a) seen)

theorem nodup_map_of_imp {α β γ : Type} {l : List α} {f : α → β} {g : α → γ} (hf : (l.map f).Nodup)
    (h : ∀ a ∈ l, ∀ b ∈ l, g a = g b → f a = f b) : (l.map g).Nodup :=
  (nodup_map_iff_inj_on hf.of_map).mpr fun a ha b hb hsame =>
    inj_on_of_nodup_map hf ha hb (h a ha b hb hsame)

section Firsts

variable {α κ : Type} [DecidableEq κ] {key : α → κ}

variable {l : List α} {seen : Finset κ}

theorem firstsBy_subset : firstsBy key l seen ⊆ l := by
  induction l generalizing seen with
  | nil => exact List.Subset.refl _
  | cons a rest ih =>
    rw [firstsBy]
    split
    · exact subset_cons_of_subset a ih
    · exact cons_subset_cons a ih

theorem not_mem_of_mem_firstsBy {a : α} (h : a ∈ firstsBy key l seen) : key a ∉ seen := by
  induction l generalizing seen with
  | nil => cases h
  | cons b rest ih =>
    rw [firstsBy] at h
    split at h
    · exact ih h
    · rename_i hb
      obtain rfl | h := mem_cons.mp h
      · exact hb
      · exact fun ha => ih h (Finset.mem_insert_of_mem ha)

theorem nodup_map_firstsBy (l : List α) (seen : Finset κ) :
    ((firstsBy key l seen).map key).Nodup := by
  induction l generalizing seen with
  | nil => exact nodup_nil
  | cons a rest ih =>
    rw [firstsBy]
    split
    · exact ih seen
    · rw [map_cons, nodup_cons]
      refine ⟨?_, ih _⟩
      intro h
      obtain ⟨b, hb, hkey⟩ := mem_map.mp h
      exact not_mem_of_mem_firstsBy hb (by simp [hkey])

theorem exists_mem_firstsBy {a : α} (ha : a ∈ l) (hseen : key a ∉ seen) :
    ∃ b ∈ firstsBy key l seen, key b = key a := by
  induction l generalizing seen with
  | nil => cases ha
  | cons c rest ih =>
    rw [firstsBy]
    split
    · rename_i hc
      obtain rfl | ha := mem_cons.mp ha
      · exact absurd hc hseen
      · exact ih ha hseen
    · by_cases hsame : key a = key c
      · exact ⟨c, mem_cons_self, hsame.symm⟩
      · obtain rfl | ha := mem_cons.mp ha
        · exact absurd rfl hsame
        · obtain ⟨b, hb, hkey⟩ := ih ha fun h => (Finset.mem_insert.mp h).elim hsame hseen
          exact ⟨b, mem_cons_of_mem c hb, hkey⟩

end Firsts

section Run

variable {ε : Type} (env : RescueEnv ε)

def RescueEnv.wants (node : TreeNode) : Bool :=
  node.type = .file ∧ Glob.matches? env.pattern node.name = some true

def RescueEnv.fid (node : TreeNode) : ID := makeFileIDByContents env.sum256 node.toNode

def RescueEnv.dest (node : TreeNode) : Bytes :=
  join env.targetDir (outputName (env.fid node) node.name)

def RescueEnv.bytesOf (content : List ID) : Bytes :=
  content.flatMap fun id => (env.loadBlob id).toOption.getD []

/-- The step of the walk at a node, if nothing goes wrong. -/
def RescueEnv.visit (s : Rescued) (node : TreeNode) : Rescued :=
  if env.wants node ∧ env.fid node ∉ s.filesFound then
    { filesFound := insert (env.fid node) s.filesFound
      dir := s.dir.save (env.dest node) (env.bytesOf node.content) }
  else s

def RescueEnv.saveVersion (dir : Store Bytes Bytes) (node : TreeNode) : Store Bytes Bytes :=
  dir.save (env.dest node) (env.bytesOf node.content)

structure RescueEnv.Fine (node : TreeNode) : Prop where
  name : FileName node.name
  blobs : ∀ id ∈ node.content, ∃ data, env.loadBlob id = .ok data

variable {env}

theorem writeBlobs_eq {blobIDs : List ID}
    (h : ∀ id ∈ blobIDs, ∃ data, env.loadBlob id = .ok data) (written : Bytes) :
    writeBlobs env blobIDs written = (none, written ++ env.bytesOf blobIDs) := by
  induction blobIDs generalizing written with
  | nil => simp [writeBlobs, RescueEnv.bytesOf]
  | cons id rest ih =>
    obtain ⟨⟨data, hdata⟩, hrest⟩ := forall_mem_cons.mp h
    rw [writeBlobs, hdata]
    dsimp only
    rw [ih hrest]
    simp [RescueEnv.bytesOf, hdata, Except.toOption]

theorem dir_foldl_visit (nodes : List TreeNode) (s : Rescued) : (nodes.foldl env.visit s).dir =
      (firstsBy env.fid (nodes.filter env.wants) s.filesFound).foldl env.saveVersion s.dir := by
  induction nodes generalizing s with
  | nil => rfl
  | cons node rest ih =>
    rw [foldl_cons, ih, RescueEnv.visit]
    by_cases hwants : env.wants node
    · rw [filter_cons_of_pos hwants, firstsBy]
      by_cases hfound : env.fid node ∈ s.filesFound
      · simp [hwants, hfound]
      · simp only [hwants, hfound, not_false_eq_true, and_self, if_true, if_false, foldl_cons]
        rfl
    · rw [filter_cons_of_neg hwants, if_neg (fun h => hwants h.1)]

/-- The target directory takes files with names of at most 255 bytes. -/
def RescueEnv.Creates (env : RescueEnv ε) : Prop :=
  ∀ fname, FileName fname → fname.length ≤ 255 → env.create (join env.targetDir fname)

theorem ignores_rescueWalkTree (hcreate : env.Creates) {tree : Nodes}
    (hfine : ∀ node ∈ tree.list, node.type = .file → env.Fine node) :
    Ignores (rescueWalkTree env) env.visit tree := by
  intro node hnode parentTreeID p s
  by_cases hfile : node.type = .file
  · obtain ⟨hname, hblobs⟩ := hfine node hnode hfile
    have hdest : env.create (env.dest node) :=
      hcreate _ (outputName_fileName hname) (length_outputName _ _).2
    have hrestore : restoreFile env (env.fid node) node.name node.content s.dir =
        some (none, s.dir.save (env.dest node) (env.bytesOf node.content)) := by
      rw [restoreFile, writeBlobs_eq hblobs]
      exact if_pos hdest
    simp only [rescueWalkTree, hfile, ne_eq, not_true_eq_false, if_false]
    rw [bind_eq_of_eq (x := (get : StateM Rescued Rescued)) rfl]
    change (if env.fid node ∈ s.filesFound then _ else _ : StateM Rescued _) s = _
    by_cases hfound : env.fid node ∈ s.filesFound
    · rw [if_pos hfound, RescueEnv.visit, if_neg (fun h => h.2 hfound)]
      rfl
    · rw [if_neg hfound]
      by_cases hmatch : Glob.matches? env.pattern node.name = some true
      · have hwants : env.wants node := by simp [RescueEnv.wants, hfile, hmatch]
        rw [if_pos hmatch, RescueEnv.visit, if_pos ⟨hwants, hfound⟩]
        change (match restoreFile env (env.fid node) node.name node.content s.dir with
          | none => _
          | some (_, dir) => _ : StateM Rescued _) s = _
        rw [hrestore]
        rfl
      · have hwants : ¬env.wants node := by simp [RescueEnv.wants, hmatch]
        rw [if_neg hmatch, RescueEnv.visit, if_neg (fun h => hwants h.1)]
        rfl
  · have hwants : ¬env.wants node := by simp [RescueEnv.wants, hfile]
    simp only [rescueWalkTree, hfile, ne_eq, not_false_eq_true, if_true]
    rw [RescueEnv.visit, if_neg (fun h => hwants h.1)]
    rfl

/-- The nodes that the walks visit, one after the other. -/
def visited (snapshots : List (ID × Nodes)) : List TreeNode :=
  snapshots.flatMap fun sn => sn.2.fresh ∅

def calls (snapshots : List (ID × Nodes)) : List (Call ε) := snapshots.map fun sn => .tree sn.1 sn.2

theorem rescueCalls_eq (hcreate : env.Creates) {snapshots : List (ID × Nodes)}
    (hone : ∀ sn ∈ snapshots, sn.2.OneTree) (hsound : ∀ sn ∈ snapshots, sn.2.Sound)
    (hfine : ∀ sn ∈ snapshots, ∀ node ∈ sn.2.list, node.type = .file → env.Fine node)
    (s : Rescued) : rescueCalls env loadAll (calls snapshots) s =
      ((), (visited snapshots).foldl env.visit s) := by
  induction snapshots generalizing s with
  | nil => rfl
  | cons sn rest ih =>
    obtain ⟨honeFirst, honeRest⟩ := forall_mem_cons.mp hone
    obtain ⟨hsoundFirst, hsoundRest⟩ := forall_mem_cons.mp hsound
    obtain ⟨hfineFirst, hfineRest⟩ := forall_mem_cons.mp hfine
    have hwalk : walk loadAll (rescueWalkTree env) sn.1 sn.2 ∅ s =
        (none, (sn.2.fresh ∅).foldl env.visit s) :=
      walk_ignoring (ignores_rescueWalkTree hcreate hfineFirst) rfl honeFirst hsoundFirst
    rw [calls, map_cons, rescueCalls, bind_eq_of_eq hwalk, visited, flatMap_cons, foldl_append]
    exact ih honeRest hsoundRest hfineRest _

end Run

/-! ## Which versions are kept -/

theorem flatMap_bytes_injective {a b : List ID}
    (h : a.flatMap (·.bytes) = b.flatMap (·.bytes)) : a = b := by
  induction a generalizing b with
  | nil =>
    cases b with
    | nil => rfl
    | cons id rest =>
      have hlength := congrArg length h
      rw [flatMap_cons, length_append, id.length_bytes, idSize] at hlength
      simp only [flatMap_nil, length_nil] at hlength
      omega
  | cons id rest ih =>
    cases b with
    | nil =>
      have hlength := congrArg length h
      rw [flatMap_cons, length_append, id.length_bytes, idSize] at hlength
      simp only [flatMap_nil, length_nil] at hlength
      omega
    | cons id' rest' =>
      rw [flatMap_cons, flatMap_cons] at h
      obtain ⟨hid, hrest⟩ := append_inj h (id.length_bytes.trans id'.length_bytes.symm)
      obtain rfl : id = id' := by
        cases id
        cases id'
        simpa using hid
      rw [ih hrest]

section Versions

variable {ε : Type} (env : RescueEnv ε) (snapshots : List (ID × Nodes))

/-- The lists of blobs of the matching files, on any path of any snapshot. -/
def RescueEnv.versions : Set (List ID) :=
  { content | ∃ sn ∈ snapshots, ∃ node ∈ sn.2.list,
    env.wants node ∧ node.content = content }

def RescueEnv.restored : List TreeNode := firstsBy env.fid ((visited snapshots).filter env.wants) ∅

/-- Everything loads, names are names, and the hash has no collisions. -/
structure RescueEnv.Loads : Prop where
  oneTree : ∀ sn ∈ snapshots, sn.2.OneTree
  sound : ∀ sn ∈ snapshots, sn.2.Sound
  fine : ∀ sn ∈ snapshots, ∀ node ∈ sn.2.list, node.type = .file → env.Fine node
  collisionFree : ∀ sn ∈ snapshots, ∀ node ∈ sn.2.list,
    ∀ sn' ∈ snapshots, ∀ node' ∈ sn'.2.list, env.fid node = env.fid node' →
      node.content.flatMap (·.bytes) = node'.content.flatMap (·.bytes)

variable {env snapshots}

variable {node : TreeNode}

theorem mem_visited (h : node ∈ visited snapshots) : ∃ sn ∈ snapshots, node ∈ sn.2.list := by
  obtain ⟨sn, hsn, hnode⟩ := mem_flatMap.mp h
  exact ⟨sn, hsn, (sn.2.list_perm ∅).mem_iff.mpr (mem_append_left _ hnode)⟩

theorem file_of_wants (h : env.wants node) : node.type = .file := by
  simp only [RescueEnv.wants, decide_eq_true_eq] at h
  exact h.1

theorem mem_restored (h : node ∈ env.restored snapshots) :
    (∃ sn ∈ snapshots, node ∈ sn.2.list) ∧ env.wants node := by
  obtain ⟨hvisited, hwants⟩ := mem_filter.mp (firstsBy_subset h)
  exact ⟨mem_visited hvisited, hwants⟩

theorem exists_restored (h : env.Loads snapshots) {content : List ID}
    (hcontent : content ∈ env.versions snapshots) :
    ∃ node ∈ env.restored snapshots, node.content = content := by
  obtain ⟨sn, hsn, node, hnode, hwants, rfl⟩ := hcontent
  have hfresh : node ∈ sn.2.fresh ∅ := by
    obtain hfresh | ⟨_, _, _, hid, _⟩ := Nodes.mem_fresh_of_mem (h.oneTree sn hsn)
      (List.Subset.refl _) (h.sound sn hsn) ∅ hnode (by simp [file_of_wants hwants])
    · exact hfresh
    · cases hid
  have hvisited : node ∈ (visited snapshots).filter env.wants :=
    mem_filter.mpr ⟨mem_flatMap.mpr ⟨sn, hsn, hfresh⟩, hwants⟩
  obtain ⟨first, hfirst, hfid⟩ := exists_mem_firstsBy hvisited (Finset.notMem_empty (env.fid node))
  obtain ⟨⟨sn', hsn', hnode'⟩, -⟩ := mem_restored hfirst
  exact ⟨first, hfirst, flatMap_bytes_injective
    (h.collisionFree sn' hsn' first hnode' sn hsn node hnode hfid)⟩

theorem nodup_restored_contents : ((env.restored snapshots).map (·.content)).Nodup := by
  refine nodup_map_of_imp (nodup_map_firstsBy _ _ : List.Nodup (.map env.fid _)) ?_
  intro a _ b _ hsame
  simp only [RescueEnv.fid, makeFileIDByContents, hsame]

theorem dir_restoreAllVersions (hcreate : env.Creates) (h : env.Loads snapshots) :
    (restoreAllVersions env loadAll (calls snapshots) {}).2.dir =
      (env.restored snapshots).foldl env.saveVersion [] := by
  unfold restoreAllVersions
  split
  · rename_i hpattern
    -- no name is empty
    have hnone : (visited snapshots).filter env.wants = [] := by
      refine filter_eq_nil_iff.mpr fun node hnode hwants => ?_
      obtain ⟨sn, hsn, hlist⟩ := mem_visited hnode
      have hname := (h.fine sn hsn node hlist (file_of_wants hwants)).name.nonempty
      simp only [RescueEnv.wants, hpattern, decide_eq_true_eq] at hwants
      apply hname
      simpa [Glob.matches?, Glob.parse, Glob.parseTokens, Glob.matchTokens] using hwants.2
    rw [RescueEnv.restored, hnone]
    rfl
  · rw [rescueCalls_eq hcreate h.oneTree h.sound h.fine, dir_foldl_visit]
    rfl

theorem dest_injective (htarget : env.targetDir ≠ []) {a b : TreeNode}
    (ha : FileName a.name) (hb : FileName b.name) (h : env.dest a = env.dest b) :
    outputName (env.fid a) a.name = outputName (env.fid b) b.name := by
  have haname : Proper (outputName (env.fid a) a.name) := (outputName_fileName ha).toProper
  have hbname : Proper (outputName (env.fid b) b.name) := (outputName_fileName hb).toProper
  unfold RescueEnv.dest at h
  rw [join_proper htarget haname, join_proper htarget hbname] at h
  have helements := render_injective (.snoc (clean_normal _) haname)
    (.snoc (clean_normal _) hbname) h
  simpa using helements

/-- Every version is kept, in a file of its own, exactly if the names of the files
that are written differ. -/
theorem rescue_keeps_versions_iff (env : RescueEnv ε) (snapshots : List (ID × Nodes))
    (htarget : env.targetDir ≠ []) (hcreate : env.Creates)
    (h : env.Loads snapshots) :
    (∃ file : List ID → Bytes, Set.InjOn file (env.versions snapshots) ∧
      ∀ content ∈ env.versions snapshots,
        (restoreAllVersions env loadAll (calls snapshots) {}).2.dir.load
          (file content) = some (env.bytesOf content)) ↔
    (env.restored snapshots).Pairwise fun a b =>
      ¬Clash (env.fid a) (env.fid b) a.name b.name := by
  rw [dir_restoreAllVersions hcreate h]
  have hname : ∀ node ∈ env.restored snapshots, FileName node.name := by
    intro node hnode
    obtain ⟨⟨sn, hsn, hlist⟩, hwants⟩ := mem_restored hnode
    exact (h.fine sn hsn node hlist (file_of_wants hwants)).name
  have hnames : ((env.restored snapshots).map env.dest).Nodup ↔
      (env.restored snapshots).Pairwise fun a b =>
        ¬Clash (env.fid a) (env.fid b) a.name b.name := by
    rw [List.Nodup, pairwise_map]
    refine List.Pairwise.iff_of_mem fun {a b} ha hb => not_congr ?_
    rw [← outputName_eq_iff]
    exact ⟨dest_injective htarget (hname a ha) (hname b hb), congrArg (join env.targetDir)⟩
  rw [← hnames]
  constructor
  · -- there are as many files as versions, so no name can occur twice
    rintro ⟨file, hinj, hfile⟩
    have hversion : ∀ node ∈ env.restored snapshots, node.content ∈ env.versions snapshots := by
      intro node hnode
      obtain ⟨⟨sn, hsn, hlist⟩, hwants⟩ := mem_restored hnode
      exact ⟨sn, hsn, node, hlist, hwants, rfl⟩
    have hfiles : ((env.restored snapshots).map fun node => file node.content).Nodup := by
      exact nodup_map_of_imp nodup_restored_contents fun a ha b hb hsame =>
        hinj (hversion a ha) (hversion b hb) hsame
    have hsubset : ((env.restored snapshots).map fun node => file node.content) ⊆
        (env.restored snapshots).map env.dest := by
      intro path hpath
      obtain ⟨node, hnode, rfl⟩ := mem_map.mp hpath
      by_contra hnot
      have hload := hfile node.content (hversion node hnode)
      have hnone : ((env.restored snapshots).foldl env.saveVersion []).load
          (file node.content) = none := Store.load_foldl_save_of_not_mem hnot []
      rw [hnone] at hload
      cases hload
    have hperm := (hfiles.subperm hsubset).perm_of_length_le (by simp)
    exact hperm.nodup_iff.mp hfiles
  · intro hnodup
    have hexists : ∀ content, ∃ path, content ∈ env.versions snapshots →
        ∃ node ∈ env.restored snapshots, node.content = content ∧ env.dest node = path := by
      intro content
      by_cases hin : content ∈ env.versions snapshots
      · obtain ⟨node, hnode, hcontent⟩ := exists_restored h hin
        exact ⟨env.dest node, fun _ => ⟨node, hnode, hcontent, rfl⟩⟩
      · exact ⟨[], fun h => absurd h hin⟩
    choose file hfile using hexists
    refine ⟨file, ?_, ?_⟩
    · intro a ha b hb hsame
      obtain ⟨node, hnode, rfl, hpath⟩ := hfile a ha
      obtain ⟨node', hnode', rfl, hpath'⟩ := hfile b hb
      rw [inj_on_of_nodup_map hnodup hnode hnode' (hpath.trans (hsame.trans hpath'.symm))]
    · intro content hin
      obtain ⟨node, hnode, rfl, hpath⟩ := hfile content hin
      rw [← hpath]
      exact Store.load_foldl_save hnodup hnode []

end Versions

/-! ## Two versions of a file with a long name -/

/-- The hash of a list of one blob is the ID of the blob. -/
def sampleEnv : RescueEnv Unit where
  sum256 data := ⟨(data ++ List.replicate idSize 0).take idSize, by simp⟩
  pattern := ascii "*"
  targetDir := ascii "/restore"
  loadBlob id := .ok id.bytes
  create _ := true

def versionOf (name : Bytes) (first : UInt8) : TreeNode :=
  sampleFile name 5 [⟨first :: List.replicate 31 0, rfl⟩]

def twoVersions (name : Bytes) : List (ID × Nodes) :=
  [(.ofNat 1, .cons (versionOf name 1) .nil .nil), (.ofNat 2, .cons (versionOf name 2) .nil .nil)]

theorem sampleEnv_creates : sampleEnv.Creates := fun _ _ _ => rfl

theorem fid_versionOf (name : Bytes) :
    sampleEnv.fid (versionOf name 1) ≠ sampleEnv.fid (versionOf name 2) := by
  simp only [RescueEnv.fid, makeFileIDByContents, versionOf, sampleFile]
  decide

theorem sampleEnv_loads (hname : FileName name) : sampleEnv.Loads (twoVersions name) where
  oneTree := by simp [twoVersions, Nodes.OneTree, Nodes.refs, treeOf, versionOf, sampleFile]
  sound := by simp [twoVersions, Nodes.Sound, versionOf, sampleFile]
  fine := by
    simp only [twoVersions, mem_cons, not_mem_nil, or_false, forall_eq_or_imp,
      forall_eq, Nodes.list, append_nil]
    exact ⟨fun _ => ⟨hname, fun id _ => ⟨_, rfl⟩⟩, fun _ => ⟨hname, fun id _ => ⟨_, rfl⟩⟩⟩
  collisionFree := by
    simp only [twoVersions, mem_cons, not_mem_nil, or_false, forall_eq_or_imp,
      forall_eq, Nodes.list, append_nil]
    exact ⟨⟨fun _ => trivial, fun h => absurd h (fid_versionOf name)⟩,
      ⟨fun h => absurd h.symm (fid_versionOf name), fun _ => trivial⟩⟩

theorem wants_versionOf (hname : FileName name) (first : UInt8) :
    sampleEnv.wants (versionOf name first) := by
  have hmatch : Glob.matches? (ascii "*") name = some true := by
    rw [show ascii "*" = [Glob.star] by decide, Glob.matches?_star]
    simpa using hname.unseparated
  simp [RescueEnv.wants, versionOf, sampleFile, sampleEnv, hmatch]

theorem restored_twoVersions (hname : FileName name) :
    sampleEnv.restored (twoVersions name) = [versionOf name 1, versionOf name 2] := by
  have hvisited : visited (twoVersions name) = [versionOf name 1, versionOf name 2] := rfl
  simp [RescueEnv.restored, hvisited, wants_versionOf hname, firstsBy, (fid_versionOf name).symm]

theorem versions_twoVersions (hname : FileName name) :
    (versionOf name 1).content ∈ sampleEnv.versions (twoVersions name) ∧
      (versionOf name 2).content ∈ sampleEnv.versions (twoVersions name) :=
  ⟨⟨_, .head _, _, .head _, wants_versionOf hname 1, rfl⟩,
    ⟨_, .tail _ (.head _), _, .head _, wants_versionOf hname 2, rfl⟩⟩

theorem clash_of_length {fid fid' : ID} (h : name.length = 254) : Clash fid fid' name name := by
  have hdrop : ∀ fid, (digits fid ++ ascii "_" ++ name).drop (name.length - 245) =
      name := by
    intro fid
    apply drop_left'
    rw [length_append, length_digits, h]
    rfl
  refine .inr ⟨?_, ?_, ?_⟩
  · omega
  · omega
  · rw [hdrop, hdrop]

def longName : Bytes := List.replicate 254 97

/-- The second version replaces the first one. -/
theorem long_name_overwritten :
    sampleEnv.Creates ∧ sampleEnv.Loads (twoVersions longName) ∧
    ¬∃ file : List ID → Bytes,
      Set.InjOn file (sampleEnv.versions (twoVersions longName)) ∧
      ∀ content ∈ sampleEnv.versions (twoVersions longName),
        (restoreAllVersions sampleEnv loadAll
          (calls (twoVersions longName)) {}).2.dir.load (file content) =
            some (sampleEnv.bytesOf content) := by
  have hname : FileName longName := ⟨⟨by decide, by decide, by decide, by decide⟩, by decide⟩
  have hloads := sampleEnv_loads hname
  refine ⟨sampleEnv_creates, hloads, ?_⟩
  rintro ⟨file, hinj, hfile⟩
  rw [dir_restoreAllVersions sampleEnv_creates hloads, restored_twoVersions hname] at hfile
  obtain ⟨hfirst, hsecond⟩ := versions_twoVersions hname
  have hclash : sampleEnv.dest (versionOf longName 1) = sampleEnv.dest (versionOf longName 2) := by
    have hlength : longName.length = 254 := length_replicate
    exact congrArg (join sampleEnv.targetDir) (outputName_eq_iff.mpr (clash_of_length hlength))
  -- the directory has a file under this name only
  have hone : ∀ content ∈ sampleEnv.versions (twoVersions longName),
      file content = sampleEnv.dest (versionOf longName 2) := by
    intro content hcontent
    by_contra hne
    have hload := hfile content hcontent
    simp only [foldl_cons, foldl_nil, RescueEnv.saveVersion, hclash] at hload
    rw [Store.load_save_of_ne _ _ hne, Store.load_save_of_ne _ _ hne] at hload
    cases hload
  have hsame := hinj hfirst hsecond ((hone _ hfirst).trans (hone _ hsecond).symm)
  revert hsame
  decide

theorem rescue_keeps_versions_iff_sample :
    ∃ file : List ID → Bytes,
      Set.InjOn file (sampleEnv.versions (twoVersions (ascii "f"))) ∧
      ∀ content ∈ sampleEnv.versions (twoVersions (ascii "f")),
        (restoreAllVersions sampleEnv loadAll
          (calls (twoVersions (ascii "f"))) {}).2.dir.load (file content) =
            some (sampleEnv.bytesOf content) := by
  have hname : FileName (ascii "f") := ⟨⟨by decide, by decide, by decide, by decide⟩, by decide⟩
  refine (rescue_keeps_versions_iff sampleEnv (twoVersions (ascii "f")) (by decide)
    sampleEnv_creates (sampleEnv_loads hname)).mpr ?_
  rw [restored_twoVersions hname, pairwise_pair, ← outputName_eq_iff]
  decide

end Rapi.Cmd
