import Rapi.Restorer.Places

/-!
# What the workers do to the files

A worker owns the file whose lock it holds, the file that it is about to create,
its uses of open files, and the places that it still has to write.  A file is
created by the one worker that finds it not in progress, and as long as this
worker has not created it, no other worker gets past the lock.  All of this is
about runs in which no operation fails.
-/

namespace Rapi.Restorer.RestoreFiles

open Foundation Restic List Function
open Multiset (count_add mem_add)

/-! ## The invariant -/

/-- What the workers are given: packs whose blobs are intact. -/
structure Setting where
  r : FileRestorer
  contents : ID → Bytes
  plaintext : ID → Bytes
  before : FileSystem
  packs : List PackInfo
  files : List FileInfo
  distinct : ∀ file ∈ files, ∀ other ∈ files,
    r.targetPath file.location = r.targetPath other.location → file = other
  sized : ∀ file ∈ files, 0 ≤ file.size
  known : ∀ pack ∈ packs, ∀ use ∈ placesOf r pack, use.file ∈ files
  intact : ∀ pack ∈ packs, ∀ use ∈ placesOf r pack,
    r.Readable (contents pack.id) use.blob use.blob.offset (plaintext use.blob.id)

namespace Setting

variable (c : Setting)

def path (file : FileInfo) : Bytes := c.r.targetPath file.location

def IsPlace (use : Use) : Prop := ∃ pack ∈ c.packs, use ∈ placesOf c.r pack

def event (use : Use) : FileEvent := .write use.file use.fileOffset.toNat (c.plaintext use.blob.id)

variable {c}

theorem IsPlace.file_mem {use : Use} (h : c.IsPlace use) : use.file ∈ c.files := by
  obtain ⟨pack, hpack, huse⟩ := h
  exact c.known pack hpack use huse

theorem path_ne {file other : FileInfo} (hfile : file ∈ c.files) (hother : other ∈ c.files)
    (hne : other ≠ file) : c.path other ≠ c.path file :=
  fun hsame => hne (c.distinct other hother file hfile hsame)

end Setting

/-- Locks held, files about to be created, uses of open files, places. -/
abbrev Share := Multiset FileInfo × Multiset FileInfo × Multiset FileInfo × Multiset Use

def Created (events : List FileEvent) (file : FileInfo) : Prop :=
  ∃ allocated, .create file allocated ∈ events

structure Files (c : Setting) (s : State) : Prop where
  run : runFileEvents c.r.dst s.events c.before = some s.fs
  ordered : s.events.Pairwise fun first second =>
    ∀ file allocated, second = .create file allocated → first.file ≠ file
  known : ∀ event ∈ s.events, event.file ∈ c.files
  written : ∀ file offset data, .write file offset data ∈ s.events →
    ∃ use, c.IsPlace use ∧ c.event use = .write file offset data

structure Locks (s : State) (locks creating : Multiset FileInfo) : Prop where
  locked : ∀ file, locks.count file + creating.count file = (s.locked file).toNat
  fresh : ∀ file, s.inProgress file = false ∨ file ∈ creating →
    ∀ event ∈ s.events, event.file ≠ file
  created : ∀ file, s.inProgress file → file ∈ creating ∨ Created s.events file

/-- The file is open as long as there are `n` uses of it. -/
structure HandleOf (c : Setting) (s : State) (file : FileInfo) (n : Nat) : Prop where
  users : s.users (c.path file) = n
  closed : s.files (c.path file) = none → n = 0
  handle : ∀ wr, s.files (c.path file) = some wr → n ≠ 0 ∧ s.fs.lookup (c.path file) = some wr

structure Handles (c : Setting) (s : State) (opened : Multiset FileInfo) : Prop where
  handles : ∀ file ∈ c.files, HandleOf c s file (opened.count file)
  created : ∀ file ∈ opened, Created s.events file

structure Sent (c : Setting) (s : State) (places : Multiset Use) : Prop where
  unsent : s.unsent ⊆ c.packs
  closed : s.sender = .closed → s.unsent = []
  packs : ∀ pack ∈ c.packs, pack ∈ s.unsent ∨
    ∀ use ∈ placesOf c.r pack, use ∈ places ∨ c.event use ∈ s.events

structure Sound (c : Setting) (s : State) (n : Share) : Prop where
  files : Files c s
  locks : Locks s n.1 n.2.1
  handles : Handles c s n.2.2.1
  sent : Sent c s n.2.2.2

structure Later (s s' : State) : Prop where
  failures : s'.failures = [] → s.failures = []
  events : s.events ⊆ s'.events
  lookup : ∀ path inode, s.fs.lookup path = some inode → s'.fs.lookup path = some inode
  progress : ∀ file, s.inProgress file → s'.inProgress file

theorem Later.refl (s : State) : Later s s := ⟨id, List.Subset.refl _, fun _ _ => id, fun _ => id⟩

theorem Later.trans {s s' s'' : State} (h : Later s s') (h' : Later s' s'') : Later s s'' :=
  ⟨h.failures ∘ h'.failures, List.Subset.trans h.events h'.events,
    fun path inode hfound => h'.lookup path inode (h.lookup path inode hfound),
    fun file hfile => h'.progress file (h.progress file hfile)⟩

def logic (c : Setting) : Logic State Share where
  inv s n := s.failures = [] → Sound c s n
  later := Later
  busy _ := True
  refl := Later.refl
  trans := Later.trans
  busy_add _ _ := trivial

/-! ## Steps -/

section Steps

variable {c : Setting} {s s' : State}

theorem Later.of_unchanged (hfs : s'.fs = s.fs) (hevents : s'.events = s.events)
    (hfailures : s'.failures = s.failures) (hprogress : ∀ file, s.inProgress file →
      s'.inProgress file) : Later s s' := by
  refine ⟨fun h => hfailures ▸ h, ?_, ?_, hprogress⟩
  · rw [hevents]
    exact List.Subset.refl _
  · rw [hfs]
    exact fun _ _ => id

theorem Later.fail (failure : Failure) : Later s (s.fail failure) :=
  ⟨fun h => by simp [State.fail] at h, List.Subset.refl _, fun _ _ => id, fun _ => id⟩

variable {file : FileInfo} {result : Except Failure Nat} {opened : Multiset FileInfo} {wr : Nat}

theorem Later.of_openFile {r : FileRestorer} {createSize : Int}
    (h : openFile r file createSize s result s') : Later s s' := by
  rcases h with ⟨failure, -, rfl⟩ | ⟨fs, wr, allocated, hopen, -, -, rfl⟩
  · exact .fail failure
  · refine ⟨id, ?_, (runFileEvent_extends hopen).lookup_mono, fun _ => id⟩
    dsimp only
    split
    · exact List.Subset.refl _
    · exact subset_append_left _ _

theorem Later.of_exec {r : FileRestorer} {contents : ID → Bytes} {op : Op}
    {result : op.Res} (h : exec r contents op s result s') : Later s s' := by
  cases op with
  | receive =>
    rcases h with ⟨pack, rest, -, -, -, rfl⟩ | ⟨-, -, rfl⟩
    · exact .of_unchanged rfl rfl rfl fun _ => id
    · exact .refl _
  | rangeFiles | rangePlaces | getInProgress =>
    obtain ⟨-, rfl⟩ := h
    exact .refl _
  | load =>
    rcases h with ⟨-, rfl⟩ | ⟨failure, -, rfl⟩
    · exact .refl _
    · exact .fail failure
  | lock =>
    obtain ⟨-, rfl⟩ := h
    exact .of_unchanged rfl rfl rfl fun _ => id
  | unlock =>
    cases h
    exact .of_unchanged rfl rfl rfl fun _ => id
  | setInProgress file =>
    cases h
    refine .of_unchanged rfl rfl rfl fun other hother => ?_
    by_cases hsame : other = file
    · exact hsame ▸ update_self ..
    · exact (update_of_ne hsame ..).trans hother
  | acquireWriter file createSize =>
    simp only [exec] at h
    split at h
    · obtain ⟨-, rfl⟩ := h
      exact .of_unchanged rfl rfl rfl fun _ => id
    · exact .of_openFile h
  | writeAt file wr blob offset =>
    rcases h with ⟨-, -, rfl⟩ | ⟨failure, n, -, rfl⟩
    · exact ⟨id, subset_append_left _ _, fun _ _ => id, fun _ => id⟩
    · exact ⟨fun h => by simp [State.fail] at h, List.Subset.refl _, fun _ _ => id, fun _ => id⟩
  | releaseWriter file =>
    simp only [exec] at h
    split at h
    · rcases h with ⟨-, rfl⟩ | ⟨failure, -, rfl⟩
      · exact .of_unchanged rfl rfl rfl fun _ => id
      · exact ⟨fun h => by simp [State.fail] at h, List.Subset.refl _, fun _ _ => id, fun _ => id⟩
    · obtain ⟨-, rfl⟩ := h
      exact .of_unchanged rfl rfl rfl fun _ => id
  | fail failure =>
    cases h
    exact .fail failure
  | panic => exact h.elim

theorem Created.mono {events events' : List FileEvent} (h : Created events file)
    (hsub : events ⊆ events') : Created events' file := by
  obtain ⟨allocated, hmem⟩ := h
  exact ⟨allocated, hsub hmem⟩

theorem Handles.mono (h : Handles c s opened) (hfiles : s'.files = s.files)
    (husers : s'.users = s.users) (hlater : Later s s') : Handles c s' opened := by
  refine ⟨fun file hfile => ?_, fun file hfile => ?_⟩
  · obtain ⟨hcount, hclosed, hopen⟩ := h.handles file hfile
    refine ⟨by rw [husers, hcount], by rwa [hfiles], fun wr hwr => ?_⟩
    rw [hfiles] at hwr
    exact (hopen wr hwr).imp_right (hlater.lookup _ _)
  · exact (h.created file hfile).mono hlater.events

theorem Sent.mono {places : Multiset Use} (h : Sent c s places) (hunsent : s'.unsent = s.unsent)
    (hsender : s'.sender = s.sender) (hevents : s.events ⊆ s'.events) : Sent c s' places := by
  refine ⟨by rw [hunsent]; exact h.unsent, by rw [hunsent, hsender]; exact h.closed, ?_⟩
  intro pack hpack
  rw [hunsent]
  exact (h.packs pack hpack).imp_right fun hplaces use huse =>
    (hplaces use huse).imp_right fun hwritten => hevents hwritten

variable {places : Multiset Use} {frame : Share} {file : FileInfo}

/-! ### The lock of a file -/

theorem Sound.setLocked {held held' : Multiset FileInfo} {value : Bool}
    (h : Sound c s ((held, 0, 0, places) + frame))
    (hheld : ∀ other, held'.count other + (s.locked other).toNat =
      held.count other + (update s.locked file value other).toNat) :
    Sound c { s with locked := update s.locked file value } ((held', 0, 0, places) + frame) := by
  refine ⟨{ h.files with }, { h.locks with locked := fun other => ?_ },
    h.handles.mono rfl rfl (.of_unchanged rfl rfl rfl fun _ => id), { h.sent with }⟩
  have hother := h.locks.locked other
  have hsame := hheld other
  simp only [Prod.fst_add, Prod.snd_add, count_add, zero_add] at hother ⊢
  omega

theorem Sound.lock (h : Sound c s ((0, 0, 0, places) + frame)) (hfree : s.locked file = false) :
    Sound c { s with locked := update s.locked file true } (({file}, 0, 0, places) + frame) := by
  refine h.setLocked fun other => ?_
  by_cases hsame : other = file
  · simp [hsame, hfree]
  · simp [hsame]

theorem Sound.unlock (h : Sound c s (({file}, 0, 0, places) + frame)) :
    Sound c { s with locked := update s.locked file false } ((0, 0, 0, places) + frame) := by
  refine h.setLocked fun other => ?_
  by_cases hsame : other = file
  · have hother := h.locks.locked file
    have hle := Bool.toNat_le (s.locked file)
    simp only [Prod.fst_add, Prod.snd_add, count_add, zero_add,
      Multiset.count_singleton_self] at hother
    rw [hsame, update_self, Multiset.count_zero, Multiset.count_singleton_self, Bool.toNat_false]
    omega
  · simp [hsame]

theorem Sound.created (h : Sound c s (({file}, 0, 0, places) + frame))
    (hprogress : s.inProgress file) : Created s.events file := by
  rcases h.locks.created file hprogress with hcreating | hcreated
  · have hcount := h.locks.locked file
    have hpos := Multiset.count_pos.mpr hcreating
    have hle := Bool.toNat_le (s.locked file)
    simp only [Prod.fst_add, count_add, Multiset.count_singleton_self] at hcount
    omega
  · exact hcreated

theorem Sound.notInProgress (h : Sound c s (({file}, 0, 0, places) + frame))
    (hprogress : s.inProgress file = false) : Sound c s ((0, {file}, 0, places) + frame) := by
  refine ⟨h.files, ⟨?_, ?_, ?_⟩, h.handles, h.sent⟩
  · intro other
    have hother := h.locks.locked other
    simp only [Prod.fst_add, Prod.snd_add, count_add, zero_add] at hother ⊢
    omega
  · intro other hother
    refine h.locks.fresh other ?_
    rcases hother with hother | hother
    · exact Or.inl hother
    · simp only [Prod.fst_add, Prod.snd_add, mem_add, Multiset.mem_singleton, zero_add] at hother ⊢
      rcases hother with rfl | hother
      · exact Or.inl hprogress
      · exact Or.inr hother
  · intro other hother
    refine (h.locks.created other hother).imp_left fun hmem => ?_
    simp only [Prod.fst_add, Prod.snd_add, mem_add, zero_add] at hmem ⊢
    exact Or.inr hmem

theorem Sound.setInProgress (h : Sound c s ((0, {file}, 0, places) + frame)) :
    Sound c { s with inProgress := update s.inProgress file true }
      ((0, {file}, 0, places) + frame) := by
  have hmem : file ∈ ({file} + frame.2.1 : Multiset FileInfo) := by simp
  have hlater : Later s _ := .of_exec
    (show exec c.r c.contents (.setInProgress file) s () _ from rfl)
  refine ⟨{ h.files with }, ⟨h.locks.locked, ?_, ?_⟩,
    h.handles.mono rfl rfl hlater, { h.sent with }⟩
  · intro other hother
    refine h.locks.fresh other ?_
    by_cases hsame : other = file
    · exact Or.inr (hsame ▸ hmem)
    · dsimp only at hother
      rwa [update_of_ne hsame] at hother
  · intro other hother
    by_cases hsame : other = file
    · exact Or.inl (hsame ▸ hmem)
    · dsimp only at hother
      rw [update_of_ne hsame] at hother
      exact h.locks.created other hother

/-! ### Open files -/

theorem Handles.change {opened' : Multiset FileInfo} (h : Handles c s opened)
    (hfile : file ∈ c.files) (hlater : Later s s')
    (hfiles : ∀ path, path ≠ c.path file → s'.files path = s.files path)
    (husers : ∀ path, path ≠ c.path file → s'.users path = s.users path)
    (hothers : ∀ other, other ≠ file → opened'.count other = opened.count other)
    (hhandle : HandleOf c s' file (opened'.count file))
    (hcreated : Created s'.events file) : Handles c s' opened' := by
  constructor
  · intro other hother
    by_cases hsame : other = file
    · rwa [hsame]
    · have hne := Setting.path_ne hfile hother hsame
      obtain ⟨hcount, hclosed, hopen⟩ := h.handles other hother
      rw [hothers other hsame]
      refine ⟨by rw [husers _ hne, hcount], by rwa [hfiles _ hne], ?_⟩
      intro wr hwr
      rw [hfiles _ hne] at hwr
      obtain ⟨hpos, hlookup⟩ := hopen wr hwr
      exact ⟨hpos, hlater.lookup _ _ hlookup⟩
  · intro other hother
    by_cases hsame : other = file
    · rwa [hsame]
    · rw [← Multiset.count_pos, hothers other hsame, Multiset.count_pos] at hother
      exact (h.created other hother).mono hlater.events

private theorem count_singleton_add_of_ne {other : FileInfo} (opened : Multiset FileInfo)
    (hne : other ≠ file) : ({file} + opened).count other = opened.count other := by
  rw [count_add, Multiset.count_singleton, if_neg hne, zero_add]

theorem Handles.opening (h : Handles c s opened) (hfile : file ∈ c.files)
    (hlater : Later s s') (hclosed : s.files (c.path file) = none)
    (hfiles : s'.files = update s.files (c.path file) (some wr))
    (husers : s'.users = update s.users (c.path file) 1)
    (hlookup : s'.fs.lookup (c.path file) = some wr)
    (hcreated : Created s'.events file) : Handles c s' ({file} + opened) := by
  have hnone := (h.handles file hfile).closed hclosed
  refine h.change hfile hlater (fun path hne => by rw [hfiles, update_of_ne hne])
    (fun path hne => by rw [husers, update_of_ne hne])
    (fun other hne => count_singleton_add_of_ne opened hne) ?_ hcreated
  rw [count_add, Multiset.count_singleton_self, hnone]
  refine ⟨by rw [husers, update_self], ?_, ?_⟩
  · rw [hfiles, update_self]
    nofun
  · intro found hfound
    rw [hfiles, update_self] at hfound
    cases hfound
    exact ⟨Nat.one_ne_zero, hlookup⟩

theorem Handles.sharing (h : Handles c s opened) (hfile : file ∈ c.files) (hlater : Later s s')
    (hopen : s.files (c.path file) = some wr) (hfiles : s'.files = s.files)
    (husers : s'.users = update s.users (c.path file) (s.users (c.path file) + 1))
    (hcreated : Created s'.events file) : Handles c s' ({file} + opened) := by
  have hhandle := h.handles file hfile
  refine h.change hfile hlater (fun path _ => by rw [hfiles])
    (fun path hne => by rw [husers, update_of_ne hne])
    (fun other hne => count_singleton_add_of_ne opened hne) ?_ hcreated
  rw [count_add, Multiset.count_singleton_self, Nat.add_comm]
  refine ⟨by rw [husers, update_self, hhandle.users], ?_, ?_⟩
  · rw [hfiles, hopen]
    nofun
  · intro found hfound
    rw [hfiles] at hfound
    exact ⟨Nat.succ_ne_zero _, hlater.lookup _ _ (hhandle.handle found hfound).2⟩

theorem Handles.release {contents : ID → Bytes} (h : Handles c s ({file} + opened))
    (hfile : file ∈ c.files) {result : Option Failure}
    (hexec : exec c.r contents (.releaseWriter file) s result s') : Handles c s' opened := by
  have hlater := Later.of_exec hexec
  have hhandle := h.handles file hfile
  rw [count_add, Multiset.count_singleton_self] at hhandle
  have hcreated := (h.created file (by simp)).mono hlater.events
  have husers : s.users (c.r.targetPath file.location) = 1 + opened.count file := hhandle.users
  have hothers : ∀ other, other ≠ file → opened.count other = ({file} + opened).count other :=
    fun other hne => (count_singleton_add_of_ne opened hne).symm
  simp only [exec] at hexec
  split at hexec
  · rename_i hlast
    have hnone : opened.count file = 0 := by omega
    have hclosing : s'.files = update s.files (c.path file) none ∧
        s'.users = update s.users (c.path file) 0 := by
      rcases hexec with ⟨-, rfl⟩ | ⟨failure, -, rfl⟩ <;> exact ⟨rfl, rfl⟩
    refine h.change hfile hlater (fun path hne => by rw [hclosing.1, update_of_ne hne])
      (fun path hne => by rw [hclosing.2, update_of_ne hne]) hothers ?_ hcreated
    rw [hnone]
    refine ⟨by rw [hclosing.2, update_self], fun _ => rfl, ?_⟩
    rw [hclosing.1, update_self]
    nofun
  · rename_i hmore
    obtain ⟨-, rfl⟩ := hexec
    refine h.change hfile hlater (fun path _ => rfl)
      (fun path hne => update_of_ne hne _ _) hothers ?_ hcreated
    refine ⟨?_, fun hclosed => ?_, fun wr hwr => ?_⟩
    · exact (update_self _ _ _).trans (by omega)
    · have := hhandle.closed hclosed
      omega
    · exact ⟨by omega, (hhandle.handle wr hwr).2⟩

/-! ### Events -/

theorem Files.concat (h : Files c s) {event : FileEvent} (hevents : s'.events = s.events ++ [event])
    (hrun : runFileEvent c.r.dst s.fs event = some s'.fs) (hfile : event.file ∈ c.files)
    (hordered : ∀ earlier ∈ s.events, ∀ file allocated,
      event = .create file allocated → earlier.file ≠ file)
    (hwritten : ∀ file offset data, event = .write file offset data →
      ∃ use, c.IsPlace use ∧ c.event use = event) : Files c s' := by
  constructor
  · rw [hevents, runFileEvents_append, h.run]
    simp only [Option.bind_some, runFileEvents, hrun]
  · rw [hevents, pairwise_append]
    refine ⟨h.ordered, pairwise_singleton _ _, ?_⟩
    intro earlier hearlier later hlater
    rw [mem_singleton.mp hlater]
    exact hordered earlier hearlier
  · intro other hother
    rw [hevents, mem_append, mem_singleton] at hother
    rcases hother with hother | rfl
    · exact h.known other hother
    · exact hfile
  · intro other offset data hother
    rw [hevents, mem_append, mem_singleton] at hother
    rcases hother with hother | rfl
    · exact h.written other offset data hother
    · exact hwritten other offset data rfl

theorem Locks.create {locks creating : Multiset FileInfo} (h : Locks s locks ({file} + creating))
    (hstarted : s.inProgress file) (hlocked : s'.locked = s.locked)
    (hprogress : s'.inProgress = s.inProgress) {allocated : Bool}
    (hevents : s'.events = s.events ++ [.create file allocated]) :
    Locks s' ({file} + locks) creating := by
  have hcount := h.locked file
  have hle := Bool.toNat_le (s.locked file)
  rw [count_add, Multiset.count_singleton_self] at hcount
  have hnone : file ∉ creating := by
    rw [← Multiset.count_eq_zero]
    omega
  constructor
  · intro other
    rw [hlocked, ← h.locked other, count_add, count_add]
    omega
  · intro other hother event hevent
    rw [hprogress] at hother
    have hbefore := h.fresh other (hother.imp_right fun hmem => by simp [hmem])
    rw [hevents, mem_append, mem_singleton] at hevent
    rcases hevent with hevent | rfl
    · exact hbefore event hevent
    · rintro rfl
      rcases hother with hother | hother
      · exact absurd (hstarted.symm.trans hother) Bool.noConfusion
      · exact hnone hother
  · intro other hother
    rw [hprogress] at hother
    rcases h.created other hother with hmem | hcreated
    · rcases mem_add.mp hmem with hmem | hmem
      · rw [Multiset.mem_singleton.mp hmem]
        exact Or.inr ⟨allocated, by simp [hevents]⟩
      · exact Or.inl hmem
    · exact Or.inr (hcreated.mono (by simp [hevents]))

theorem Locks.write {locks creating : Multiset FileInfo} (h : Locks s locks creating)
    (hlocked : s'.locked = s.locked) (hprogress : s'.inProgress = s.inProgress) {event : FileEvent}
    (hevents : s'.events = s.events ++ [event]) (hcreated : Created s.events event.file) :
    Locks s' locks creating := by
  refine ⟨by rw [hlocked]; exact h.locked, ?_, ?_⟩
  · intro other hother later hlater
    rw [hprogress] at hother
    rw [hevents, mem_append, mem_singleton] at hlater
    rcases hlater with hlater | rfl
    · exact h.fresh other hother later hlater
    · rintro rfl
      obtain ⟨allocated, hmem⟩ := hcreated
      exact h.fresh _ hother _ hmem rfl
  · intro other hother
    rw [hprogress] at hother
    exact (h.created other hother).imp_right fun hcreated => hcreated.mono (by simp [hevents])

/-! ### Reading and writing -/

theorem Sound.create (h : Sound c s ((0, {file}, 0, places) + frame))
    (hfile : file ∈ c.files) (hstarted : s.inProgress file)
    (hexec : exec c.r c.contents (.acquireWriter file file.size) s result s')
    (hok : s'.failures = []) : ∃ wr, result = .ok wr ∧ s'.fs.lookup (c.path file) = some wr ∧
      Sound c s' (({file}, 0, {file}, places) + frame) := by
  have hlater := Later.of_exec hexec
  have hfresh := h.locks.fresh file (Or.inr (by simp))
  simp only [exec] at hexec
  split at hexec
  · -- an open file was created
    rename_i wr hopen
    obtain ⟨hpos, -⟩ := (h.handles.handles file hfile).handle wr hopen
    obtain ⟨allocated, hmem⟩ :=
      h.handles.created file (Multiset.count_pos.mp (Nat.pos_of_ne_zero hpos))
    exact absurd rfl (hfresh _ hmem)
  · rename_i hclosed
    have hsize : ¬file.size < 0 := Int.not_lt.mpr (c.sized file hfile)
    rcases hexec with ⟨failure, -, rfl⟩ | ⟨fs, wr, allocated, hcreate, hlookup, rfl, rfl⟩
    · simp [State.fail] at hok
    · simp only [if_neg hsize] at hlater ⊢
      refine ⟨wr, rfl, hlookup, ?_, ?_, ?_, ?_⟩
      · refine h.files.concat rfl hcreate hfile ?_ nofun
        rintro earlier hearlier _ _ ⟨⟩
        exact hfresh earlier hearlier
      · have hlocks : Locks s frame.1 ({file} + frame.2.1) := by simpa using h.locks
        change Locks _ ({file} + frame.1) (0 + frame.2.1)
        rw [zero_add]
        exact hlocks.create hstarted rfl rfl rfl
      · have hopened := h.handles.opening hfile hlater hclosed rfl rfl hlookup ⟨allocated, by simp⟩
        simpa using hopened
      · exact h.sent.mono rfl rfl hlater.events

theorem Sound.reopen (h : Sound c s ((0, 0, 0, places) + frame)) (hfile : file ∈ c.files)
    (hcreated : Created s.events file)
    (hexec : exec c.r c.contents (.acquireWriter file (-1)) s result s') (hok : s'.failures = []) :
    ∃ wr, result = .ok wr ∧ s'.fs.lookup (c.path file) = some wr ∧
      Sound c s' ((0, 0, {file}, places) + frame) := by
  have hlater := Later.of_exec hexec
  have hcreated' := hcreated.mono hlater.events
  simp only [exec] at hexec
  split at hexec
  · rename_i wr hopen
    obtain ⟨rfl, rfl⟩ := hexec
    have hopened := h.handles.sharing hfile hlater hopen rfl rfl hcreated'
    exact ⟨wr, rfl, ((h.handles.handles file hfile).handle wr hopen).2,
      { h.files with }, { h.locks with }, by simpa using hopened, { h.sent with }⟩
  · rename_i hclosed
    rcases hexec with ⟨failure, -, rfl⟩ | ⟨fs, wr, allocated, hopen, hlookup, rfl, rfl⟩
    · simp [State.fail] at hok
    · -- a file that was created is opened as it is
      obtain ⟨-, -, rfl⟩ := Option.map_eq_some_iff.mp hopen
      have hopened := h.handles.opening hfile hlater hclosed rfl rfl hlookup hcreated'
      exact ⟨wr, rfl, hlookup, { h.files with }, { h.locks with },
        by simpa using hopened, { h.sent with }⟩

theorem Sound.write {use : Use} (h : Sound c s ((0, 0, {use.file}, {use}) + frame))
    (huse : c.IsPlace use) (hlookup : s.fs.lookup (c.path use.file) = some wr)
    {result : Option Failure}
    (hexec : exec c.r c.contents (.writeAt use.file wr (c.plaintext use.blob.id)
      use.fileOffset) s result s') (hok : s'.failures = []) :
    result = none ∧ Sound c s' ((0, 0, {use.file}, 0) + frame) := by
  have hlater := Later.of_exec hexec
  have hcreated := h.handles.created use.file (by simp)
  rcases hexec with ⟨-, rfl, rfl⟩ | ⟨failure, n, -, rfl⟩
  · refine ⟨rfl, ?_, ?_, h.handles.mono rfl rfl hlater, ?_⟩
    · refine h.files.concat rfl ?_ huse.file_mem nofun fun _ _ _ _ => ⟨use, huse, rfl⟩
      change (s.fs.lookup (c.path use.file)).map _ = _
      rw [hlookup]
      rfl
    · exact h.locks.write rfl rfl rfl hcreated
    · refine ⟨h.sent.unsent, h.sent.closed, fun pack hpack => ?_⟩
      refine (h.sent.packs pack hpack).imp_right fun hplaces other hother => ?_
      rcases hplaces other hother with hmem | hwritten
      · rcases mem_add.mp hmem with hmem | hmem
        · rw [Multiset.mem_singleton.mp hmem]
          exact Or.inr (mem_append_right _ mem_cons_self)
        · exact Or.inl (mem_add.mpr (Or.inr hmem))
      · exact Or.inr (hlater.events hwritten)
  · simp [State.fail] at hok

theorem Sound.release (h : Sound c s ((0, 0, {file}, 0) + frame)) (hfile : file ∈ c.files)
    {result : Option Failure} (hexec : exec c.r c.contents (.releaseWriter file) s result s')
    (hok : s'.failures = []) : result = none ∧ Sound c s' (0 + frame) := by
  have hhandles : Handles c s ({file} + frame.2.2.1) := h.handles
  have hreleased := hhandles.release hfile hexec
  obtain ⟨rfl, files, users, rfl⟩ : result = none ∧ ∃ files users,
      s' = { s with files := files, users := users } := by
    simp only [exec] at hexec
    split at hexec
    · rcases hexec with ⟨rfl, rfl⟩ | ⟨failure, -, rfl⟩
      · exact ⟨rfl, _, _, rfl⟩
      · simp [State.fail] at hok
    · obtain ⟨rfl, rfl⟩ := hexec
      exact ⟨rfl, _, _, rfl⟩
  exact ⟨rfl, { h.files with }, { h.locks with }, by simpa using hreleased, { h.sent with }⟩

theorem Sound.receive {pack : PackInfo} {rest : List PackInfo} (h : Sound c s (0 + frame))
    (hunsent : s.unsent = pack :: rest) : Sound c { s with unsent := rest }
      ((0, 0, 0, (placesOf c.r pack : Multiset Use)) + frame) := by
  refine ⟨{ h.files with }, { h.locks with }, h.handles.mono rfl rfl
    (.of_unchanged rfl rfl rfl fun _ => id), ?_, ?_, ?_⟩
  · exact fun other hother => h.sent.unsent (by simp [hunsent, hother])
  · intro hclosed
    have := h.sent.closed hclosed
    simp [hunsent] at this
  · intro other hother
    rcases h.sent.packs other hother with hmem | hplaces
    · rw [hunsent, mem_cons] at hmem
      rcases hmem with rfl | hmem
      · refine Or.inr fun use huse => Or.inl (mem_add.mpr (Or.inl ?_))
        exact Multiset.mem_coe.mpr huse
      · exact Or.inl hmem
    · refine Or.inr fun use huse => (hplaces use huse).imp_left fun hmem => ?_
      rw [zero_add] at hmem
      exact mem_add.mpr (Or.inr hmem)

end Steps

end Rapi.Restorer.RestoreFiles
