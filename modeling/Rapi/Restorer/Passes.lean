import Rapi.Restorer.FileContents

/-!
# What the two passes do

The first pass collects the files whose size is not zero, and the index
afterwards holds the first of them for every inode.  In the second pass the index
also gets the first file of size zero on an inode that it does not hold.  Together
this says which visits of files make a hard link: those for whose inode the index
holds another file.
-/

namespace Rapi.Restorer

open Foundation Foundation.FilePath Restic List Option
open HardlinkIndex (has)

namespace Visit

def isFile (visit : Visit) : Bool := visit.node.type = .file

def isEmpty (visit : Visit) : Bool := visit.node.size = 0

def key (visit : Visit) : HardlinkKey := hardlinkKey visit.node

def info (visit : Visit) : FileInfo :=
  ⟨int64 visit.node.size, visit.location, .ids visit.node.content⟩

def content (plaintext : ID → Bytes) (visit : Visit) : Bytes := visit.node.content.flatMap plaintext

def linkable (key : HardlinkKey) (visit : Visit) : Bool :=
  visit.isFile && 1 < visit.node.links && visit.key = key

theorem linkable_iff {key : HardlinkKey} {visit : Visit} : visit.linkable key ↔
      visit.isFile ∧ 1 < visit.node.links ∧ visit.key = key := by
  simp [linkable, and_assoc]

end Visit

def firstNonempty (visits : List Visit) (key : HardlinkKey) : Option Visit :=
  visits.find? fun visit => !visit.isEmpty && visit.linkable key

def firstEmpty (visits : List Visit) (key : HardlinkKey) : Option Visit :=
  visits.find? fun visit => visit.isEmpty && visit.linkable key

/-- The first file of a size on the inode of this one; if there is none, the first
one before it. -/
def primary (visits : List Visit) (visit : Visit) : Option Visit :=
  (firstNonempty visits visit.key).or (firstEmpty (visits.takeWhile (· ≠ visit)) visit.key)

/-- The file is to become a hard link to another one. -/
def linked (visits : List Visit) (visit : Visit) : Bool :=
  (!visit.isEmpty || 1 < visit.node.links) && (primary visits visit).any (· ≠ visit)

variable {visits : List Visit} {s s' : SecondPass} {path : Bytes}

theorem linked_iff {visit : Visit} : linked visits visit ↔
      (visit.isEmpty = false ∨ 1 < visit.node.links) ∧
        ∃ first, primary visits visit = some first ∧ first ≠ visit := by
  simp [linked, Option.any_eq_true]

theorem primary_cases {visit first : Visit} (h : primary visits visit = some first) :
    first ∈ visits ∧ first.linkable visit.key ∧
      (first.isEmpty = false ∧ firstNonempty visits visit.key = some first ∨
        firstNonempty visits visit.key = none ∧
          firstEmpty (visits.takeWhile (· ≠ visit)) visit.key = some first) := by
  rcases Option.or_eq_some_iff.mp h with hfirst | ⟨hnone, hfirst⟩
  · have hspec := find?_some hfirst
    simp only [Bool.and_eq_true, Bool.not_eq_true'] at hspec
    exact ⟨mem_of_find?_eq_some hfirst, hspec.2, Or.inl ⟨hspec.1, hfirst⟩⟩
  · have hspec := find?_some hfirst
    rw [Bool.and_eq_true] at hspec
    exact ⟨(takeWhile_sublist _).subset (mem_of_find?_eq_some hfirst), hspec.2,
      Or.inr ⟨hnone, hfirst⟩⟩

theorem primary_spec {visit first : Visit} (h : primary visits visit = some first) :
    first ∈ visits ∧ first.isFile ∧ 1 < first.node.links ∧
      first.key = visit.key := ⟨(primary_cases h).1, Visit.linkable_iff.mp (primary_cases h).2.1⟩

theorem not_linked_primary {visit first : Visit}
    (h : primary visits visit = some first) : linked visits first = false := by
  have hkey := (primary_spec h).2.2.2
  rw [← Bool.not_eq_true, linked_iff]
  rintro ⟨-, other, hother, hne⟩
  rw [primary, hkey] at hother
  obtain ⟨-, -, ⟨-, hfirst⟩ | ⟨hnone, hfirst⟩⟩ := primary_cases h
  · rw [hfirst] at hother
    exact hne (Option.some.inj hother).symm
  · -- nothing before the first one is linkable
    rw [hnone, none_or] at hother
    obtain ⟨-, front, back, hsplit, hfront⟩ := find?_eq_some_iff_append.mp hfirst
    have hbefore : visits.takeWhile (· ≠ first) <+: front := by
      have hvisits := takeWhile_append_dropWhile (p := (· ≠ visit)) (l := visits)
      rw [hsplit, append_assoc, cons_append] at hvisits
      rw [← hvisits, takeWhile_append, takeWhile_cons_of_neg (by simp), append_nil]
      split
      · exact prefix_rfl
      · exact takeWhile_prefix _
    have hspec := find?_some hother
    have hnot := hfront other (hbefore.subset (mem_of_find?_eq_some hother))
    rw [hspec] at hnot
    cases hnot

/-- Files on one inode have one content. -/
def Consistent (plaintext : ID → Bytes) (visits : List Visit) : Prop :=
  ∀ visit ∈ visits, ∀ other ∈ visits, visit.isFile → other.isFile → visit.key = other.key →
    visit.content plaintext = other.content plaintext

/-! ## The first pass -/

structure Collected (start : FileSystem) (done : List Visit) (s : FirstPass) : Prop where
  lookups : s.fs.lookup = start.lookup
  specials : s.fs.specials = start.specials
  inodes : s.fs.inodes = start.inodes
  idx : ∀ key, Store.load s.idx key = (firstNonempty done key).map Visit.location
  files : ∀ file, file ∈ s.files ↔ ∃ visit ∈ done, visit.isFile ∧
    visit.isEmpty = false ∧
    (visit.node.links ≤ 1 ∨ firstNonempty done visit.key = some visit) ∧
    file = visit.info

section FirstPass

variable {start : FileSystem} {done : List Visit} {s s' : FirstPass}

theorem mkdirFirst_spec {path : Bytes} (h : mkdirFirst s path = (none, s')) :
    s'.fs.lookup = s.fs.lookup ∧ s'.fs.specials = s.fs.specials ∧
      s'.fs.inodes = s.fs.inodes ∧ s'.idx = s.idx ∧ s'.files = s.files := by
  unfold mkdirFirst at h
  split at h
  · cases h
  · rename_i fs hfs
    cases h
    obtain ⟨hlookups, hspecials, hinodes⟩ := FileSystem.mkdirAll_spec hfs
    exact ⟨hlookups, hspecials, hinodes, rfl, rfl⟩

private theorem Collected.mkdir {path : Bytes} (h : Collected start done s)
    (hmkdir : mkdirFirst s path = (none, s')) : Collected start done s' := by
  obtain ⟨hlookups, hspecials, hinodes, hidx, hfiles⟩ := mkdirFirst_spec hmkdir
  exact ⟨hlookups.trans h.lookups, hspecials.trans h.specials,
    hinodes.trans h.inodes, hidx ▸ h.idx, hfiles ▸ h.files⟩

theorem firstNonempty_append_singleton (visit : Visit) (key : HardlinkKey) :
    firstNonempty (done ++ [visit]) key = (firstNonempty done key).or
      (if !visit.isEmpty && visit.linkable key then some visit else none) := by
  rw [firstNonempty, find?_append, find?_singleton]
  rfl

private theorem firstNonempty_stable {visit other : Visit} (hother : other ∈ done)
    (hnonempty : other.isEmpty = false) (hfile : other.isFile) : (other.node.links ≤ 1 ∨
        firstNonempty (done ++ [visit]) other.key = some other) ↔
      (other.node.links ≤ 1 ∨ firstNonempty done other.key = some other) := by
  by_cases hlinks : other.node.links ≤ 1
  · simp [hlinks]
  · have hsome : (firstNonempty done other.key).isSome := by
      rw [firstNonempty, find?_isSome]
      exact ⟨other, hother, by simp [hnonempty, Visit.linkable_iff, hfile]; omega⟩
    obtain ⟨first, hfirst⟩ := isSome_iff_exists.mp hsome
    rw [firstNonempty_append_singleton, hfirst, some_or]

private theorem Collected.files_append {visit : Visit} (h : Collected start done s) (added : Prop)
    (hadded : added ↔ visit.isFile ∧ visit.isEmpty = false ∧
      (visit.node.links ≤ 1 ∨ firstNonempty (done ++ [visit]) visit.key = some visit))
    (file : FileInfo) : (file ∈ s.files ∨ added ∧ file = visit.info) ↔
      ∃ other ∈ done ++ [visit], other.isFile ∧
        other.isEmpty = false ∧
        (other.node.links ≤ 1 ∨
          firstNonempty (done ++ [visit]) other.key = some other) ∧
        file = other.info := by
  rw [h.files, hadded]
  constructor
  · rintro (⟨other, hother, hfile, hnonempty, hfirst, rfl⟩ | ⟨⟨hfile, hnonempty, hfirst⟩, rfl⟩)
    · exact ⟨other, by simp [hother], hfile, hnonempty,
        (firstNonempty_stable hother hnonempty hfile).mpr hfirst, rfl⟩
    · exact ⟨visit, by simp, hfile, hnonempty, hfirst, rfl⟩
  · rintro ⟨other, hother, hfile, hnonempty, hfirst, rfl⟩
    rw [mem_append, mem_singleton] at hother
    rcases hother with hother | rfl
    · exact Or.inl ⟨other, hother, hfile, hnonempty,
        (firstNonempty_stable hother hnonempty hfile).mp hfirst, rfl⟩
    · exact Or.inr ⟨⟨hfile, hnonempty, hfirst⟩, rfl⟩

private theorem Collected.skip {visit : Visit} (h : Collected start done s)
    (hskip : visit.isFile = false ∨ visit.isEmpty) : Collected start (done ++ [visit]) s := by
  refine ⟨h.lookups, h.specials, h.inodes, fun key => ?_, fun file => ?_⟩
  · have hnot : (!visit.isEmpty && visit.linkable key) = false := by
      rcases hskip with hskip | hskip <;> simp [Visit.linkable, hskip]
    rw [h.idx, firstNonempty_append_singleton, hnot]
    simp
  · have hadded : False ↔ visit.isFile ∧ visit.isEmpty = false ∧
        (visit.node.links ≤ 1 ∨
          firstNonempty (done ++ [visit]) visit.key = some visit) := by
      rcases hskip with hskip | hskip <;> simp [hskip]
    rw [← h.files_append False hadded]
    simp

private theorem Collected.visit {visit : Visit} (h : Collected start done s) (hnew : visit ∉ done) :
    Collected start (done ++ [visit]) (collectFile visit.node visit.location s) := by
  unfold collectFile
  dsimp only
  by_cases htype : visit.node.type = .file
  swap
  · rw [if_pos htype]
    exact h.skip (Or.inl (by simp [Visit.isFile, htype]))
  rw [if_neg (not_not.mpr htype)]
  have hfile : visit.isFile := by simp [Visit.isFile, htype]
  by_cases hsize : visit.node.size = 0
  · rw [if_pos hsize]
    exact h.skip (Or.inr (by simp [Visit.isEmpty, hsize]))
  rw [if_neg hsize]
  have hnonempty : visit.isEmpty = false := by simp [Visit.isEmpty, hsize]
  by_cases hlinks : 1 < visit.node.links
  swap
  · rw [if_neg hlinks]
    refine ⟨h.lookups, h.specials, h.inodes, fun key => ?_, fun file => ?_⟩
    · rw [h.idx, firstNonempty_append_singleton]
      simp [Visit.linkable, hlinks]
    · have hle : visit.node.links ≤ 1 := Nat.le_of_not_lt hlinks
      rw [← h.files_append True (by simp [hfile, hnonempty, hle])]
      simp [Visit.info]
  rw [if_pos hlinks]
  have hcounts : ∀ key, (!visit.isEmpty && visit.linkable key) = decide (visit.key = key) := by
    simp [hnonempty, Visit.linkable, hfile, hlinks]
  have hload : Store.load s.idx (hardlinkKey visit.node) =
      (firstNonempty done visit.key).map Visit.location := h.idx _
  cases hfirst : firstNonempty done visit.key with
  | some first =>
    have hhas : s.idx.has (hardlinkKey visit.node) := by
      rw [has, hload, hfirst]
      rfl
    have hne : first ≠ visit := by
      rintro rfl
      exact hnew (mem_of_find?_eq_some hfirst)
    rw [if_pos hhas]
    refine ⟨h.lookups, h.specials, h.inodes, fun key => ?_, fun file => ?_⟩
    · rw [h.idx, firstNonempty_append_singleton, hcounts]
      by_cases hkey : visit.key = key
      · rw [← hkey, hfirst]
        simp
      · simp [hkey]
    · rw [← h.files_append False (by
        rw [firstNonempty_append_singleton, hfirst]
        simp [hne]; omega)]
      simp
  | none =>
    have hhas : s.idx.has (hardlinkKey visit.node) = false := by
      rw [has, hload, hfirst]
      rfl
    rw [if_neg (by simp [hhas])]
    refine ⟨h.lookups, h.specials, h.inodes, fun key => ?_, fun file => ?_⟩
    · rw [firstNonempty_append_singleton, hcounts]
      unfold HardlinkIndex.add
      rw [if_neg (by simp [hhas])]
      by_cases hkey : visit.key = key
      · rw [← hkey, hfirst]
        simp [Visit.key]
      · refine (Store.load_save_of_ne s.idx _ (Ne.symm hkey)).trans ?_
        rw [h.idx]
        simp [hkey]
    · rw [← h.files_append True (by
        rw [firstNonempty_append_singleton, hfirst, hcounts]
        simp [hnonempty, hfile])]
      simp [Visit.info]

theorem firstPass_collected {events : List Event} (h : Collected start done s)
    (hnodup : (done ++ events.filterMap Event.visit?).Nodup)
    (hrun : runEvents firstPass events s = some s') :
    Collected start (done ++ events.filterMap Event.visit?) s' := by
  induction events generalizing done s with
  | nil =>
    cases hrun
    rwa [filterMap_nil, append_nil]
  | cons event events ih =>
    rw [runEvents] at hrun
    split at hrun
    · cases hrun
    · rename_i next hevent
      cases event with
      | enterDir visit => exact ih (h.mkdir hevent) hnodup hrun
      | leaveDir visit =>
        cases hevent
        exact ih h hnodup hrun
      | visitNode visit =>
        have happend : done ++ (Event.visitNode visit :: events).filterMap Event.visit? =
            (done ++ [visit]) ++ events.filterMap Event.visit? := by
          rw [append_assoc]
          rfl
        rw [happend] at hnodup ⊢
        refine ih ?_ hnodup hrun
        have hnew : visit ∉ done := by
          rw [append_assoc] at hnodup
          intro hmem
          exact (nodup_append.mp hnodup).2.2 visit hmem visit (by simp) rfl
        unfold runEvent firstPass at hevent
        dsimp only at hevent
        split at hevent
        · cases hevent
        · rename_i made hmade
          cases hevent
          exact (h.mkdir hmade).visit hnew

end FirstPass

/-! ## The second pass -/

theorem restoreNodeMetadataTo_spec (h : restoreNodeMetadataTo s path = (none, s')) : s' = s := by
  unfold restoreNodeMetadataTo at h
  split at h
  · cases h
    rfl
  · cases h

theorem restoreEmptyFileAt_spec (h : restoreEmptyFileAt s path = (none, s')) :
    s.fs.create path = some s'.fs ∧ s'.idx = s.idx := by
  unfold restoreEmptyFileAt at h
  split at h
  · cases h
  · rename_i fs hcreate
    rw [restoreNodeMetadataTo_spec h]
    exact ⟨hcreate, rfl⟩

theorem restoreHardlinkAt_spec {target : Bytes} (h : restoreHardlinkAt s target path = (none, s')) :
    s'.idx = s.idx ∧
      (s.fs.occupied path ∧ s'.fs = s.fs.remove path ∨
        s.fs.link target path = some s'.fs) := by
  unfold restoreHardlinkAt at h
  split at h
  · rename_i hoccupied
    cases h
    exact ⟨rfl, Or.inl ⟨hoccupied, rfl⟩⟩
  · split at h
    · cases h
    · rename_i fs hlink
      rw [restoreNodeMetadataTo_spec h]
      exact ⟨rfl, Or.inr hlink⟩

inductive Step (visits done : List Visit) (visit : Visit) (fs : FileSystem) : FileSystem → Prop
  | special {fs' : FileSystem} (hother : visit.isFile = false)
      (hmknod : fs.mknod visit.target = some fs') : Step visits done visit fs fs'
  | kept (hfile : visit.isFile) (hlinked : linked visits visit = false)
      (hnonempty : visit.isEmpty = false) : Step visits done visit fs fs
  | created {fs' : FileSystem} (hfile : visit.isFile)
      (hlinked : linked visits visit = false) (hempty : visit.isEmpty)
      (hcreate : fs.create visit.target = some fs') : Step visits done visit fs fs'
  | relinked {fs' : FileSystem} {first : Visit} (hfile : visit.isFile)
      (hlinked : linked visits visit) (hprimary : primary visits visit = some first)
      (hready : first ∈ done ∨ first.isEmpty = false)
      (hlink : fs.link first.target visit.target = some fs') : Step visits done visit fs fs'
  | lost (hfile : visit.isFile) (hlinked : linked visits visit)
      (hoccupied : fs.occupied visit.target) : Step visits done visit fs (fs.remove visit.target)

inductive Steps (visits : List Visit) (start : FileSystem) : List Visit → FileSystem → Prop
  | start : Steps visits start [] start
  | visit {done : List Visit} {visit : Visit} {fs fs' : FileSystem}
      (before : Steps visits start done fs) (hmem : visit ∈ visits)
      (hnew : visit ∉ done) (hdone : done ⊆ visits) (step : Step visits done visit fs fs') :
      Steps visits start (done ++ [visit]) fs'

def Indexed (visits done : List Visit) (idx : HardlinkIndex) : Prop :=
  ∀ key, Store.load idx key =
    ((firstNonempty visits key).or (firstEmpty done key)).map Visit.location

section SecondPass

variable {visits done rest : List Visit} {visit : Visit} {idx : HardlinkIndex}

theorem firstEmpty_append_singleton (key : HardlinkKey) :
    firstEmpty (done ++ [visit]) key = (firstEmpty done key).or
      (if visit.isEmpty && visit.linkable key then some visit else none) := by
  rw [firstEmpty, find?_append, find?_singleton]
  rfl

theorem Indexed.unchanged (h : Indexed visits done idx)
    (hnot : visit.isEmpty → visit.linkable visit.key →
      idx.has visit.key) : Indexed visits (done ++ [visit]) idx := by
  intro key
  rw [h key, firstEmpty_append_singleton]
  by_cases hcounts : (visit.isEmpty && visit.linkable key)
  · rw [if_pos hcounts]
    rw [Bool.and_eq_true] at hcounts
    obtain ⟨hempty, hlinkable⟩ := hcounts
    have hkey : visit.key = key := (Visit.linkable_iff.mp hlinkable).2.2
    subst hkey
    have hhas := hnot hempty hlinkable
    rw [has, h visit.key, Option.isSome_map] at hhas
    obtain ⟨first, hfirst⟩ := Option.isSome_iff_exists.mp hhas
    rw [← Option.or_assoc, hfirst, Option.some_or]
  · rw [if_neg hcounts, Option.or_none]

theorem Indexed.add (h : Indexed visits done idx) (hempty : visit.isEmpty)
    (hlinkable : visit.linkable visit.key) (hhas : idx.has visit.key = false) :
    Indexed visits (done ++ [visit]) (idx.add visit.key visit.location) := by
  have hnone : (firstNonempty visits visit.key).or (firstEmpty done visit.key) = none := by
    rw [has, h visit.key, isSome_map] at hhas
    simpa using hhas
  rw [HardlinkIndex.add, if_neg (by simp [hhas])]
  intro key
  rw [firstEmpty_append_singleton, ← Option.or_assoc]
  by_cases hkey : key = visit.key
  · rw [hkey, hnone, Store.load_save_self, hempty, hlinkable]
    rfl
  · rw [Store.load_save_of_ne _ _ hkey, h key]
    have hother : visit.linkable key = false := by
      rw [← Bool.not_eq_true, Visit.linkable_iff]
      rintro ⟨-, -, rfl⟩
      exact hkey rfl
    rw [hother, Bool.and_false, if_neg Bool.false_ne_true, or_none]

private theorem takeWhile_ne (hvisits : visits = done ++ visit :: rest)
    (hnew : visit ∉ done) : visits.takeWhile (· ≠ visit) = done := by
  rw [hvisits, takeWhile_append_of_pos, takeWhile_cons_of_neg (by simp), append_nil]
  intro other hother
  have hne : other ≠ visit := by
    rintro rfl
    exact hnew hother
  simpa using hne

/-- A file finds in the index the file that it is linked to. -/
theorem Indexed.load_primary (h : Indexed visits done idx)
    (hvisits : visits = done ++ visit :: rest) (hnew : visit ∉ done) :
    Store.load idx visit.key = (primary visits visit).map Visit.location := by
  rw [h visit.key, primary, takeWhile_ne hvisits hnew]

variable (hvisits : visits = done ++ visit :: rest) (hfile : visit.isFile)
include hvisits hfile

theorem step_of_restoreFileNode {dst : Bytes} {s s' : SecondPass} (h : Indexed visits done s.idx)
    (hnew : visit ∉ done) (hjoin : ∀ other ∈ visits, join dst other.location = other.target)
    (hlocations : ∀ other ∈ visits, other.location = visit.location → other = visit)
    (hrun : restoreFileNode dst visit.node visit.target visit.location s = (none, s')) :
    Step visits done visit s.fs s'.fs ∧ Indexed visits (done ++ [visit]) s'.idx := by
  have hload := h.load_primary hvisits hnew
  have hhas : s.idx.has visit.key = (primary visits visit).isSome := by
    rw [has, hload, isSome_map]
  unfold restoreFileNode at hrun
  dsimp only at hrun
  change (if visit.node.size = 0 ∧
    (visit.node.links < 2 ∨ s.idx.has visit.key = false) then _ else _) = _ at hrun
  split at hrun
  · rename_i hcreate
    obtain ⟨hsize, hentry⟩ := hcreate
    have hempty : visit.isEmpty := by simp [Visit.isEmpty, hsize]
    obtain ⟨hfs, hidx⟩ := restoreEmptyFileAt_spec hrun
    have hlinked : linked visits visit = false := by
      rw [← Bool.not_eq_true, linked_iff]
      rintro ⟨hlinks, first, hfirst, -⟩
      have hmany := hlinks.resolve_left (by simp [hempty])
      have hnone := hentry.resolve_left (by omega)
      rw [hhas, hfirst] at hnone
      cases hnone
    refine ⟨.created hfile hlinked hempty hfs, ?_⟩
    rw [hidx]
    dsimp only
    by_cases hlinks : 1 < visit.node.links
    · rw [if_pos hlinks]
      exact h.add hempty (Visit.linkable_iff.mpr ⟨hfile, hlinks, rfl⟩)
        (hentry.resolve_left (by omega))
    · rw [if_neg hlinks]
      apply h.unchanged
      intro _ hlinkable
      exact absurd (Visit.linkable_iff.mp hlinkable).2.1 hlinks
  · rename_i hcreate
    have hentry : visit.isEmpty → 1 < visit.node.links ∧ s.idx.has visit.key := by
      intro hempty
      have hsize : visit.node.size = 0 := by simpa [Visit.isEmpty] using hempty
      simp only [hsize, true_and, not_or, Bool.not_eq_false] at hcreate
      exact ⟨by omega, hcreate.2⟩
    have hindexed : Indexed visits (done ++ [visit]) s.idx :=
      h.unchanged fun hempty _ => (hentry hempty).2
    change (if s.idx.has visit.key ∧
      s.idx.getFilename visit.key ≠ visit.location then
        restoreHardlinkAt s (join dst (s.idx.getFilename visit.key)) _
      else _) = _ at hrun
    have hkept : restoreNodeMetadataTo s visit.target = (none, s') →
        visit.isEmpty = false → linked visits visit = false → Step visits done visit s.fs s'.fs ∧
          Indexed visits (done ++ [visit]) s'.idx := by
      intro hmetadata hnonempty hlinked
      rw [restoreNodeMetadataTo_spec hmetadata]
      exact ⟨.kept hfile hlinked hnonempty, hindexed⟩
    cases hprimary : primary visits visit with
    | none =>
      rw [hprimary] at hhas
      rw [if_neg (by simp [hhas])] at hrun
      apply hkept hrun
      · rw [← Bool.not_eq_true]
        intro hempty
        have hsome := (hentry hempty).2
        rw [hhas] at hsome
        cases hsome
      · simp [linked, hprimary]
    | some first =>
      rw [hprimary] at hload hhas
      have hname : s.idx.getFilename visit.key = first.location := by
        rw [HardlinkIndex.getFilename, hload]
        rfl
      obtain ⟨hmem, -, hfirst⟩ := primary_cases hprimary
      have hready : first ∈ done ∨ first.isEmpty = false := by
        rcases hfirst with ⟨hnonempty, -⟩ | ⟨-, hfirst⟩
        · exact Or.inr hnonempty
        · rw [takeWhile_ne hvisits hnew] at hfirst
          exact Or.inl (mem_of_find?_eq_some hfirst)
      rw [hname, hhas, hjoin first hmem] at hrun
      by_cases hsame : first.location = visit.location
      · rw [if_neg (by simp [hsame])] at hrun
        have hself := hlocations first hmem hsame
        subst hself
        exact hkept hrun (hready.resolve_left hnew) (not_linked_primary hprimary)
      · rw [if_pos ⟨rfl, hsame⟩] at hrun
        have hlinked : linked visits visit := by
          refine linked_iff.mpr ⟨?_, first, hprimary, fun hself => hsame (by rw [hself])⟩
          cases hempty : visit.isEmpty with
          | false => exact Or.inl rfl
          | true => exact Or.inr (hentry hempty).1
        obtain ⟨hidx, ⟨hoccupied, hfs⟩ | hlink⟩ := restoreHardlinkAt_spec hrun
        · rw [hfs, hidx]
          exact ⟨.lost hfile hlinked hoccupied, hindexed⟩
        · rw [hidx]
          exact ⟨.relinked hfile hlinked hprimary hready hlink, hindexed⟩

omit hvisits hfile in
theorem step_of_restoreNodeTo {s s' : SecondPass} (h : Indexed visits done s.idx)
    (hother : visit.isFile = false) (hrun : restoreNodeTo visit.node s visit.target = (none, s')) :
    Step visits done visit s.fs s'.fs ∧ Indexed visits (done ++ [visit]) s'.idx := by
  have hmknod : s.fs.mknod visit.target = some s'.fs ∧ s'.idx = s.idx := by
    unfold restoreNodeTo at hrun
    split at hrun
    all_goals first
      | cases hrun
      | split at hrun
        · cases hrun
        · rename_i fs hfs
          rw [restoreNodeMetadataTo_spec hrun]
          exact ⟨hfs, rfl⟩
  refine ⟨.special hother hmknod.1, ?_⟩
  rw [hmknod.2]
  apply h.unchanged
  intro _ hlinkable
  rw [(Visit.linkable_iff.mp hlinkable).1] at hother
  cases hother

end SecondPass

theorem secondPass_steps {dst : Bytes} {start : FileSystem} (hnodup : visits.Nodup)
    (hjoin : ∀ visit ∈ visits, join dst visit.location = visit.target)
    (hlocations : ∀ visit ∈ visits, ∀ other ∈ visits, other.location = visit.location →
      other = visit) {events : List Event} {done : List Visit}
    (hvisits : visits = done ++ events.filterMap Event.visit?)
    (hsteps : Steps visits start done s.fs) (hidx : Indexed visits done s.idx)
    (hrun : runEvents (secondPass dst) events s = some s') : Steps visits start visits s'.fs := by
  induction events generalizing done s with
  | nil =>
    cases hrun
    rw [filterMap_nil, append_nil] at hvisits
    exact hvisits ▸ hsteps
  | cons event events ih =>
    rw [runEvents] at hrun
    split at hrun
    · cases hrun
    · rename_i next hevent
      cases event with
      | enterDir visit =>
        cases hevent
        exact ih hvisits hsteps hidx hrun
      | leaveDir visit =>
        have hnext := restoreNodeMetadataTo_spec hevent
        subst hnext
        exact ih hvisits hsteps hidx hrun
      | visitNode visit =>
        change visits = done ++ visit :: events.filterMap Event.visit? at hvisits
        have hmem : visit ∈ visits := by simp [hvisits]
        have hdone : done ⊆ visits := by simp [hvisits]
        have hnew : visit ∉ done := by
          rw [hvisits] at hnodup
          intro hvisit
          exact (nodup_append.mp hnodup).2.2 visit hvisit visit (by simp) rfl
        have hstep : Step visits done visit s.fs next.fs ∧
            Indexed visits (done ++ [visit]) next.idx := by
          unfold runEvent secondPass at hevent
          dsimp only at hevent
          split at hevent
          · rename_i htype
            exact step_of_restoreNodeTo hidx (by simpa [Visit.isFile] using htype) hevent
          · rename_i htype
            exact step_of_restoreFileNode hvisits
              (by simpa [Visit.isFile] using htype) hidx hnew hjoin (hlocations visit hmem) hevent
        refine ih ?_ (.visit hsteps hmem hnew hdone hstep.1) hstep.2 hrun
        rw [hvisits, append_assoc]
        rfl

end Rapi.Restorer
