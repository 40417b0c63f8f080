import Rapi.Fuse.SnapshotsDir

/-!
# What the snapshot directories show

A directory was built from one of the listings that the reads have found, and
so were the snapshots of the root.  The number is all that is compared, so a
directory that is read shows the repository if all listings with the number of
the current one hold the same snapshots.
-/

namespace Rapi.Fuse

open Foundation Restic List Store

/-! ## Names of snapshots -/

/-- Each of the snapshots has one name, and nothing else has a name. -/
structure Naming (l : List Snapshot) (names : Store Bytes Snapshot) : Prop where
  named : ∀ sn ∈ l, ∃ name, names.load name = some sn
  mem : ∀ name sn, names.load name = some sn → sn ∈ l
  unique : ∀ first second sn, names.load first = some sn →
    names.load second = some sn → first = second

theorem Naming.nil : Naming [] [] where
  named sn hsn := by cases hsn
  mem name sn hload := by cases hload
  unique first second sn hload := by cases hload

variable {l found : List Snapshot} {format : Int → Int → Bytes} {now : Int} {c : Config}
  {s t : State} {listings : List (List Snapshot)} {dir : Dir}

theorem Naming.save {names : Store Bytes Snapshot} {sn : Snapshot} {name : Bytes}
    (h : Naming l names) (hsn : sn ∉ l) (hname : name ∉ names.names) :
    Naming (l ++ [sn]) (names.save name sn) := by
  constructor
  · intro found hfound
    obtain hold | hnew := mem_append.mp hfound
    · obtain ⟨other, hload⟩ := h.named found hold
      exact ⟨other, (load_save_iff hname).mpr (Or.inl hload)⟩
    · obtain rfl := mem_singleton.mp hnew
      exact ⟨name, load_save_self names name found⟩
  · intro other found hload
    obtain hold | ⟨rfl, -⟩ := (load_save_iff hname).mp hload
    · exact mem_append_left [sn] (h.mem other found hold)
    · exact mem_append_right l mem_cons_self
  · intro first second found hfirst hsecond
    obtain hold | ⟨rfl, rfl⟩ := (load_save_iff hname).mp hfirst <;>
      obtain hold' | ⟨hnew, hsame⟩ := (load_save_iff hname).mp hsecond
    · exact h.unique first second found hold hold'
    · rw [hnew] at hold
      exact absurd (h.mem first sn hold) hsn
    · exact absurd (h.mem second found hold') hsn
    · exact hsame.symm

theorem Naming.addName {d : Names} {sn : Snapshot} (h : Naming l d.names)
    (hsn : sn ∉ l) : Naming (l ++ [sn]) (addName format d sn).names := by
  exact h.save hsn (d.freeName_not_mem format sn)

theorem Naming.foldl {rest : List Snapshot} {d : Names} (h : Naming l d.names)
    (hnodup : (l ++ rest).Nodup) :
    Naming (l ++ rest) (rest.foldl (Fuse.addName format) d).names := by
  induction rest generalizing l d with
  | nil =>
    rw [append_nil]
    exact h
  | cons sn rest ih =>
    have hsn : sn ∉ l := by
      intro hmem
      exact (nodup_append.mp hnodup).2.2 sn hmem sn mem_cons_self rfl
    rw [append_cons] at hnodup ⊢
    exact ih (h.addName hsn) hnodup

theorem snapshotNames_naming (format : Int → Int → Bytes) (tag host : Bytes)
    {snapshots : List Snapshot} (hnodup : snapshots.Nodup) :
    Naming (snapshots.filter (belongs tag host))
      (snapshotNames format tag host snapshots).names := by
  have hnaming : Naming ([] ++ snapshots.filter (belongs tag host))
      (snapshotNames format tag host snapshots).names :=
    Naming.nil.foldl (hnodup.filter (belongs tag host))
  exact hnaming

/-! ## What a directory has been built from -/

/-- The directory has been built from `basis`, and names of an IDs directory are
left over from other listings. -/
def Dir.Built (format : Int → Int → Bytes) (listings : List (List Snapshot))
    (basis : List Snapshot) : Dir → Prop
  | .tags d => d.snCount = basis.length ∧ d.content = tagNames basis
  | .hosts d => d.snCount = basis.length ∧ d.content = hostNames basis
  | .ids d => d.snCount = basis.length ∧
      (∀ name sn, d.content.load name = some sn → name = str sn.id ∧ ∃ old ∈ listings, sn ∈ old) ∧
      ∀ sn ∈ basis, ∃ other ∈ basis, str other.id = str sn.id ∧
        d.content.load (str sn.id) = some other
  | .snapshots tag host d => d.snCount = basis.length ∧
      d.content = snapshotNames format tag host basis

def Dir.snCount : Dir → Nat
  | .tags d => d.snCount
  | .hosts d => d.snCount
  | .ids d => d.snCount
  | .snapshots _ _ d => d.snCount

section Update

variable {format : Int → Int → Bytes} {listings : List (List Snapshot)}
  {basis : List Snapshot} {dir : Dir} {root : Root}

theorem Dir.Built.snCount_eq (h : dir.Built format listings basis) :
    dir.snCount = basis.length := by
  cases dir <;> exact h.1

theorem Dir.Built.mono {more : List (List Snapshot)} (h : dir.Built format listings basis)
    (hmore : listings ⊆ more) : dir.Built format more basis := by
  cases dir with
  | tags d | hosts d | snapshots tag host d => exact h
  | ids d =>
    obtain ⟨hcount, hnames, hbasis⟩ := h
    refine ⟨hcount, fun name sn hload => ?_, hbasis⟩
    obtain ⟨hname, old, hold, hsn⟩ := hnames name sn hload
    exact ⟨hname, old, hmore hold, hsn⟩

theorem Cached.update_of_ne {γ : Type} {build : List Snapshot → γ → γ}
    {d : Cached γ} (h : d.snCount ≠ root.snCount) :
    d.update build root = ⟨root.snCount, build root.snapshots d.content⟩ := if_pos h

theorem Dir.update_of_eq (h : dir.snCount = root.snCount) : dir.update format root = dir := by
  cases dir <;>
    · simp only [Dir.snCount] at h
      simp [Dir.update, updateTagNames, updateHostsNames, updateSnapshotIDSNames,
        updateSnapshotNames, Cached.update, h]

theorem addIDs_load_of_mem {snapshots : List Snapshot} {name : Bytes}
    (h : name ∈ snapshots.map fun sn => str sn.id) (names : Store Bytes Snapshot) :
    ∃ sn ∈ snapshots, str sn.id = name ∧ (addIDs snapshots names).load name = some sn :=
  load_foldl_save_of_mem h names

theorem addIDs_load {snapshots : List Snapshot} {names : Store Bytes Snapshot} {name : Bytes}
    {sn : Snapshot} (h : (addIDs snapshots names).load name = some sn) :
    name = str sn.id ∧ sn ∈ snapshots ∨ names.load name = some sn := by
  by_cases hname : name ∈ snapshots.map fun sn => str sn.id
  · obtain ⟨other, hother, hsame, hload⟩ := addIDs_load_of_mem hname names
    obtain rfl : other = sn := Option.some.inj (hload.symm.trans h)
    exact Or.inl ⟨hsame.symm, hother⟩
  · have hload : (addIDs snapshots names).load name = names.load name :=
      load_foldl_save_of_not_mem hname names
    rw [← hload]
    exact Or.inr h

theorem Dir.Built.rebuild (h : dir.Built format listings basis)
    (hroot : root.snapshots ∈ [] :: listings) (hcount : root.snCount = root.snapshots.length)
    (hne : dir.snCount ≠ root.snCount) :
    (dir.update format root).Built format listings root.snapshots := by
  cases dir with
  | tags d =>
    rw [Dir.update, updateTagNames, Cached.update_of_ne hne]
    exact ⟨hcount, rfl⟩
  | hosts d =>
    rw [Dir.update, updateHostsNames, Cached.update_of_ne hne]
    exact ⟨hcount, rfl⟩
  | snapshots tag host d =>
    rw [Dir.update, updateSnapshotNames, Cached.update_of_ne hne]
    exact ⟨hcount, rfl⟩
  | ids d =>
    rw [Dir.update, updateSnapshotIDSNames, Cached.update_of_ne hne]
    refine ⟨hcount, fun name sn hload => ?_, fun sn hsn => ?_⟩
    · obtain ⟨hname, hsn⟩ | hold := addIDs_load hload
      · obtain hnil | hlisted := mem_cons.mp hroot
        · rw [hnil] at hsn
          cases hsn
        · exact ⟨hname, root.snapshots, hlisted, hsn⟩
      · exact h.2.1 name sn hold
    · have hname : str sn.id ∈ root.snapshots.map fun sn => str sn.id := mem_map_of_mem hsn
      exact addIDs_load_of_mem hname d.content

theorem Dir.Built.update (h : dir.Built format listings basis) (hbasis : basis ∈ [] :: listings)
    (hroot : root.snapshots ∈ [] :: listings) (hcount : root.snCount = root.snapshots.length) :
    ∃ basis ∈ [] :: listings, basis.length = root.snCount ∧
      (dir.update format root).Built format listings basis := by
  by_cases hsame : dir.snCount = root.snCount
  · rw [Dir.update_of_eq hsame]
    exact ⟨basis, hbasis, h.snCount_eq.symm.trans hsame, h⟩
  · exact ⟨root.snapshots, hroot, hcount.symm, h.rebuild hroot hcount hsame⟩

end Update

/-! ## Invariant of all runs -/

structure Consistent (c : Config) (s : State) : Prop where
  repo_nodup : (s.repo.map Snapshot.id).Nodup
  root_listed : s.root.snapshots ∈ [] :: s.listings
  root_count : s.root.snCount = s.root.snapshots.length
  built : ∀ dir ∈ s.dirs, ∃ basis ∈ [] :: s.listings, dir.Built c.format s.listings basis

theorem newSnapshotsDir_built (format : Int → Int → Bytes) (tag host : Bytes)
    (listings : List (List Snapshot)) :
    (newSnapshotsDir tag host).Built format listings [] := ⟨rfl, rfl⟩

theorem consistent_start (c : Config) {repo : List Snapshot}
    (hrepo : (repo.map Snapshot.id).Nodup) : Consistent c (start repo) where
  repo_nodup := hrepo
  root_listed := mem_cons_self
  root_count := rfl
  built := by
    intro dir hdir
    refine ⟨[], mem_cons_self, ?_⟩
    simp only [start, mem_cons, not_mem_nil, or_false] at hdir
    obtain rfl | rfl | rfl | rfl := hdir
    · exact newSnapshotsDir_built c.format [] [] []
    · exact ⟨rfl, rfl⟩
    · exact ⟨rfl, rfl⟩
    · refine ⟨rfl, fun name sn hload => ?_, fun sn hsn => ?_⟩
      · cases hload
      · cases hsn

theorem updateSnapshots_found {root : Root} (found : List Snapshot)
    (hnow : minSnapshotsReloadTime ≤ now - root.lastCheck)
    (hcount : root.snCount = root.snapshots.length) :
    let root' := (updateSnapshots (ε := Empty) now (.ok found) none root).2
    root'.snCount = found.length ∧ root'.snCount = root'.snapshots.length ∧
      (root'.snapshots = found ∨ root'.snapshots = root.snapshots) := by
  intro root'
  have hroot' : root' = if root.snCount ≠ found.length then ⟨found, found.length, now⟩
      else { root with lastCheck := now } := by
    simp only [root', updateSnapshots, if_neg (Int.not_lt.mpr hnow)]
    split <;> rfl
  by_cases hne : root.snCount ≠ found.length
  · rw [hroot', if_pos hne]
    exact ⟨rfl, rfl, Or.inl rfl⟩
  · rw [hroot', if_neg hne]
    exact ⟨not_not.mp hne, hcount, Or.inr rfl⟩

theorem step_read {i : Nat} (h : step c s (.read i now found) = some t) :
    ∃ dir root, s.dirs[i]? = some dir ∧ found.Perm (s.repo.filter c.wanted) ∧
      minSnapshotsReloadTime ≤ now - s.root.lastCheck ∧
      root = (updateSnapshots (ε := Empty) now (.ok found) none s.root).2 ∧
      t = { s with
        root := root
        dirs := s.dirs.set i (dir.update c.format root)
        listings := found :: s.listings } := by
  simp only [step] at h
  cases hdir : s.dirs[i]? with
  | none => simp [hdir] at h
  | some dir =>
    simp only [hdir] at h
    split at h
    · rename_i hguard
      obtain ⟨hfound, hnow⟩ := hguard
      exact ⟨dir, _, rfl, hfound, hnow, rfl, (Option.some.inj h).symm⟩
    · cases h

theorem Consistent.read {i : Nat} (hs : Consistent c s)
    (h : step c s (.read i now found) = some t) :
    Consistent c t ∧ t.listings = found :: s.listings ∧ t.repo = s.repo ∧
      found.Perm (s.repo.filter c.wanted) ∧
      ∃ dir root, s.dirs[i]? = some dir ∧
        t.dirs[i]? = some (dir.update c.format root) ∧
        ∃ basis ∈ [] :: t.listings, basis.length = found.length ∧
          (dir.update c.format root).Built c.format t.listings basis := by
  obtain ⟨dir, root, hdir, hfound, hnow, hroot, rfl⟩ := step_read h
  obtain ⟨hnumber, hcount, hsnapshots⟩ := updateSnapshots_found found hnow hs.root_count
  rw [← hroot] at hnumber hcount hsnapshots
  -- the old listings and the new one
  have hmore : s.listings ⊆ found :: s.listings := subset_cons_self _ _
  have hlisted : ∀ basis ∈ [] :: s.listings, basis ∈ [] :: found :: s.listings := by
    intro basis hbasis
    exact cons_subset_cons [] hmore hbasis
  have hrootListed : root.snapshots ∈ [] :: found :: s.listings := by
    obtain hnew | hold := hsnapshots
    · rw [hnew]
      exact mem_cons_of_mem _ mem_cons_self
    · rw [hold]
      exact hlisted _ hs.root_listed
  obtain ⟨before, hbefore, hbuilt⟩ := hs.built dir (mem_of_getElem? hdir)
  obtain ⟨basis, hbasis, hlength, hupdated⟩ :=
    (hbuilt.mono hmore).update (hlisted before hbefore) hrootListed hcount
  have hi : i < s.dirs.length := (List.getElem?_eq_some_iff.mp hdir).1
  refine ⟨⟨hs.repo_nodup, hrootListed, hcount, ?_⟩, rfl, rfl, hfound, ?_⟩
  · intro other hother
    obtain hold | rfl := mem_or_eq_of_mem_set hother
    · obtain ⟨old, hmem, hother⟩ := hs.built other hold
      exact ⟨old, hlisted old hmem, hother.mono hmore⟩
    · exact ⟨basis, hbasis, hupdated⟩
  · refine ⟨dir, root, hdir, ?_, basis, hbasis, ?_, hupdated⟩
    · exact getElem?_set_self hi
    · rw [hlength, hnumber]

theorem Consistent.step {e : Event} (hs : Consistent c s) (h : step c s e = some t) :
    Consistent c t := by
  cases e with
  | add sn =>
    simp only [Fuse.step] at h
    split at h
    · cases h
    · rename_i hfresh
      cases h
      exact { hs with repo_nodup := nodup_cons.mpr ⟨hfresh, hs.repo_nodup⟩ }
  | remove id =>
    cases h
    exact { hs with
      repo_nodup := hs.repo_nodup.sublist (filter_sublist.map Snapshot.id) }
  | «open» tag host =>
    cases h
    refine { hs with built := fun dir hdir => ?_ }
    obtain hold | hnew := mem_append.mp hdir
    · exact hs.built dir hold
    · obtain rfl := mem_singleton.mp hnew
      exact ⟨[], mem_cons_self, newSnapshotsDir_built c.format tag host _⟩
  | read i now found => exact (hs.read h).1

theorem consistent_of_reaches {repo : List Snapshot} (hrepo : (repo.map Snapshot.id).Nodup)
    (hreach : Reaches (step c) Anything (start repo) s) : Consistent c s :=
  hreach.invariant _ (consistent_start c hrepo) fun _ _ _ hs _ h => hs.step h

/-! ## Following the repository -/

/-- The directory shows the snapshots: the tags directory their tags, as far as
they can be names, and the hosts directory their hosts. -/
def Dir.Shows (visible : List Snapshot) : Dir → Prop
  | .tags d => ∀ tag, tag ∈ d.content ↔ tag ≠ [] ∧ ∃ sn ∈ visible, tag ∈ sn.tags
  | .hosts d => ∀ host, host ∈ d.content ↔ ∃ sn ∈ visible, sn.hostname = host
  | .ids d => ∀ name sn, d.content.load name = some sn ↔ sn ∈ visible ∧ name = str sn.id
  | .snapshots tag host d => Naming (visible.filter (belongs tag host)) d.content.names

/-- No snapshot that an earlier read found is gone, and the names of the snapshots
are different. -/
def Dir.Kept (listings : List (List Snapshot)) (found : List Snapshot) : Dir → Prop
  | .ids _ => (∀ old ∈ listings, old ⊆ found) ∧
      (found.map fun sn => str sn.id).Nodup
  | _ => True

theorem Naming.congr {l' : List Snapshot} {names : Store Bytes Snapshot}
    (h : Naming l names) (hmem : ∀ sn, sn ∈ l ↔ sn ∈ l') : Naming l' names where
  named sn hsn := h.named sn ((hmem sn).mpr hsn)
  mem name sn hload := (hmem sn).mp (h.mem name sn hload)
  unique := h.unique

theorem Dir.Built.shows {basis visible : List Snapshot} (h : dir.Built format listings basis)
    (hperm : basis.Perm visible) (hnodup : visible.Nodup) (hkept : dir.Kept listings visible) :
    dir.Shows visible := by
  cases dir with
  | tags d =>
    intro tag
    rw [h.2, tagNames]
    simp only [mem_toFinset, mem_flatMap, mem_filter, decide_eq_true_eq, hperm.mem_iff]
    constructor
    · rintro ⟨sn, hsn, htag, hne⟩
      exact ⟨hne, sn, hsn, htag⟩
    · rintro ⟨hne, sn, hsn, htag⟩
      exact ⟨sn, hsn, htag, hne⟩
  | hosts d =>
    intro host
    rw [h.2, hostNames]
    simp only [mem_toFinset, mem_map, hperm.mem_iff]
  | snapshots tag host d =>
    rw [Dir.Shows, h.2]
    refine (snapshotNames_naming format tag host (hperm.nodup_iff.mpr hnodup)).congr fun sn => ?_
    rw [mem_filter, mem_filter, hperm.mem_iff]
  | ids d =>
    obtain ⟨hcount, hnames, hbasis⟩ := h
    obtain ⟨hsubset, hshort⟩ := hkept
    intro name sn
    constructor
    · intro hload
      obtain ⟨hname, old, hold, hsn⟩ := hnames name sn hload
      exact ⟨hsubset old hold hsn, hname⟩
    · rintro ⟨hsn, rfl⟩
      obtain ⟨other, hother, hsame, hload⟩ := hbasis sn (hperm.mem_iff.mpr hsn)
      obtain rfl : other = sn := inj_on_of_nodup_map hshort (hperm.mem_iff.mp hother) hsn hsame
      exact hload

theorem Dir.Kept.congr {visible : List Snapshot} (h : dir.Kept listings found)
    (hperm : found.Perm visible) : dir.Kept (found :: listings) visible := by
  cases dir with
  | tags d | hosts d | snapshots tag host d => trivial
  | ids d =>
    refine ⟨fun old hold sn hsn => ?_, ?_⟩
    · obtain rfl | hearlier := mem_cons.mp hold
      · exact hperm.mem_iff.mp hsn
      · exact hperm.mem_iff.mp (h.1 old hearlier hsn)
    · exact (hperm.map _).nodup_iff.mp h.2

theorem Dir.Kept.update (h : dir.Kept listings found) (format : Int → Int → Bytes)
    (root : Root) : (dir.update format root).Kept listings found := by
  cases dir <;> exact h

/-- A directory that is read shows the repository, if the earlier listings with the
same number of snapshots had the same snapshots and, in an IDs directory, no
snapshot that was listed before is gone and no two have the same short ID. -/
theorem read_shows_repository (c : Config) (repo : List Snapshot)
    (hrepo : (repo.map Snapshot.id).Nodup) (s t : State)
    (hreach : Reaches (step c) Anything (start repo) s) (i : Nat) (now : Int)
    (found : List Snapshot) (hread : step c s (.read i now found) = some t)
    (hsame : ∀ old ∈ s.listings, old.length = found.length → old.Perm found)
    (hkept : ∀ dir, s.dirs[i]? = some dir → dir.Kept s.listings found) :
    ∃ dir, t.dirs[i]? = some dir ∧ dir.Shows (t.repo.filter c.wanted) := by
  have hs := consistent_of_reaches hrepo hreach
  obtain ⟨-, hlistings, hrepository, hfound, dir, root, hdir, hupdated, basis, hbasis,
    hlength, hbuilt⟩ := hs.read hread
  rw [hlistings] at hbasis hbuilt
  rw [hrepository]
  -- the listing that the directory was built from has the snapshots that are there
  have hperm : basis.Perm found := by
    rw [mem_cons, mem_cons] at hbasis
    obtain rfl | rfl | hold := hbasis
    · rw [length_nil, eq_comm, length_eq_zero_iff] at hlength
      rw [hlength]
    · exact List.Perm.refl basis
    · exact hsame basis hold hlength
  have hnodup : (s.repo.filter c.wanted).Nodup :=
    (List.Nodup.of_map Snapshot.id hs.repo_nodup).filter c.wanted
  have hkeptNow := ((hkept dir hdir).update c.format root).congr hfound
  exact ⟨_, hupdated, hbuilt.shows (hperm.trans hfound) hnodup hkeptNow⟩

def sampleConfig : Config where
  wanted _ := true
  format _ _ := ascii "name"

/-- The state after a run that starts with one snapshot. -/
def sampleState (events : List Event) : State :=
  (run (step sampleConfig) (start [sampleSnapshot 1]) events).getD (start [])

/-- A second snapshot is added between two reads of the IDs directory. -/
theorem read_shows_repository_sample :
    let s := sampleState [.read 3 60 [sampleSnapshot 1], .add (sampleSnapshot 2)]
    ∃ t, step sampleConfig s (.read 3 120 [sampleSnapshot 1, sampleSnapshot 2]) = some t ∧
      ∃ dir, t.dirs[3]? = some dir ∧ dir.Shows (t.repo.filter sampleConfig.wanted) := by
  intro s
  have hreach : Reaches (step sampleConfig) Anything (start [sampleSnapshot 1]) s := by
    have hrun : run (step sampleConfig) (start [sampleSnapshot 1])
        [.read 3 60 [sampleSnapshot 1], .add (sampleSnapshot 2)] = some s := rfl
    exact reaches_of_run _ Reaches.refl (fun _ _ _ => trivial) hrun
  refine ⟨_, rfl, ?_⟩
  refine read_shows_repository sampleConfig [sampleSnapshot 1] (by decide) s _ hreach 3
    120 [sampleSnapshot 1, sampleSnapshot 2] rfl (by decide) ?_
  intro dir hdir
  obtain rfl := Option.some.inj hdir
  exact ⟨by decide, by decide⟩

/-- One snapshot is removed and another one added between two reads of the IDs
directory. -/
theorem replaced_snapshot_not_shown :
    ¬∀ (c : Config) (repo : List Snapshot), (repo.map Snapshot.id).Nodup →
      ∀ s t, Reaches (step c) Anything (start repo) s →
      ∀ i now found, step c s (.read i now found) = some t →
      ∃ dir, t.dirs[i]? = some dir ∧ dir.Shows (t.repo.filter c.wanted) := by
  intro hall
  have hrun : run (step sampleConfig) (start [sampleSnapshot 1])
      [.read 3 60 [sampleSnapshot 1], .remove (sampleSnapshot 1).id, .add (sampleSnapshot 2)] =
      some (sampleState [.read 3 60 [sampleSnapshot 1], .remove (sampleSnapshot 1).id,
        .add (sampleSnapshot 2)]) := rfl
  have hreach : Reaches (step sampleConfig) Anything (start [sampleSnapshot 1]) _ :=
    reaches_of_run _ Reaches.refl (fun _ _ _ => trivial) hrun
  obtain ⟨dir, hdir, hshows⟩ :=
    hall sampleConfig [sampleSnapshot 1] (by decide) _ _ hreach 3 120 [sampleSnapshot 2] rfl
  obtain rfl := Option.some.inj hdir
  have hold := (hshows (str (sampleSnapshot 1).id) (sampleSnapshot 1)).mp rfl
  exact absurd hold.1 (by decide)

end Rapi.Fuse
