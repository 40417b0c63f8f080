import Rapi.Foundation.Playback
import Rapi.Restorer.WorkerPrograms

/-!
# The restored files

What the workers do to the files is a schedule in the sense of `RestoreTo`, with
the files as they were before their blobs were grouped by pack.  So after a run
in which no operation fails every file has its content, unless two of the paths
led to one file before: the files are opened as they are, and not replaced.  There
are no special files at the paths or above; symbolic links there would be followed.
-/

namespace Rapi.Restorer.RestoreFiles

open Foundation Restic List Option Function

variable {r : FileRestorer} {contents plaintext : ID → Bytes}
  {files : List FileInfo} {before : FileSystem}

/-! ## The files and their groups -/

variable {file grouped : FileInfo} {s : State}

theorem Grouped.location_eq (h : Grouped r file grouped) : grouped.location = file.location := by
  obtain ⟨content, entries, -, -, rfl⟩ := h
  exact groupBlobs_location content entries file

theorem Grouped.size_eq (h : Grouped r file grouped) : grouped.size = file.size := by
  obtain ⟨content, entries, -, -, rfl⟩ := h
  exact groupBlobs_size content entries file

theorem Grouped.unique {first second : FileInfo} (hfirst : Grouped r file first)
    (hsecond : Grouped r file second) : first = second := by
  obtain ⟨content, entries, hblobs, hentries, rfl⟩ := hfirst
  obtain ⟨content', entries', hblobs', hentries', rfl⟩ := hsecond
  rw [hblobs] at hblobs'
  cases hblobs'
  rw [hentries] at hentries'
  cases hentries'
  rfl

def original (files : List FileInfo) (grouped : FileInfo) : FileInfo :=
  (files.find? (·.location = grouped.location)).getD grouped

/-- There are no special files where the files go or above, and files that share an
inode have the same content. -/
structure Writable (plaintext : ID → Bytes) (dst : Bytes) (files : List FileInfo)
    (before : FileSystem) : Prop where
  regular : ∀ file ∈ files, ∀ path ∈ before.specials, path ≠ FilePath.join dst file.location ∧
      ¬ (path ++ [FilePath.separator]) <+: FilePath.join dst file.location
  coherent : ∀ file ∈ files, ∀ other ∈ files, ∀ inode,
    before.lookup (FilePath.join dst file.location) = some inode →
    before.lookup (FilePath.join dst other.location) = some inode →
    file.content plaintext = other.content plaintext

section

variable (h : Restorable r contents plaintext files) (hfile : file ∈ files)

include h hfile

theorem Restorable.eq_of_path_eq {other : FileInfo} (hother : other ∈ files)
    (hpath : r.targetPath file.location = r.targetPath other.location) : file = other :=
  inj_on_of_nodup_map h.distinct hfile hother hpath

theorem Restorable.size_eq : file.size = (file.content plaintext).length := by
  obtain ⟨content, hblobs, -, hsize, -⟩ := h.content file hfile
  rw [hsize, FileInfo.content, hblobs]

theorem Restorable.chunks_ne_nil : file.chunks plaintext ≠ [] := by
  obtain ⟨content, hblobs, hne, -⟩ := h.content file hfile
  obtain ⟨id, rest, rfl⟩ := exists_cons_of_ne_nil hne
  rw [chunks_ids hblobs]
  exact cons_ne_nil _ _

theorem Restorable.original_eq (hgrouped : Grouped r file grouped) :
    original files grouped = file := by
  have hsome : (files.find? (·.location = grouped.location)).isSome := by
    rw [find?_isSome]
    exact ⟨file, hfile, by simp [hgrouped.location_eq]⟩
  obtain ⟨found, hfound⟩ := isSome_iff_exists.mp hsome
  have hlocation : found.location = file.location := by
    have := find?_some hfound
    rw [← hgrouped.location_eq]
    simpa using this
  rw [original, hfound, getD_some]
  exact h.eq_of_path_eq (mem_of_find?_eq_some hfound) hfile (by rw [hlocation])

end

def mapFile (f : FileInfo → FileInfo) : FileEvent → FileEvent
  | .create file allocated => .create (f file) allocated
  | .write file offset data => .write (f file) offset data

theorem mapFile_file (f : FileInfo → FileInfo) (event : FileEvent) :
    (mapFile f event).file = f event.file := by
  cases event <;> rfl

theorem runFileEvents_mapFile {dst : Bytes} {f : FileInfo → FileInfo} {events : List FileEvent}
    {fs : FileSystem} (h : ∀ event ∈ events, (f event.file).location = event.file.location ∧
      (f event.file).size = event.file.size) :
    runFileEvents dst (events.map (mapFile f)) fs = runFileEvents dst events fs := by
  induction events generalizing fs with
  | nil => rfl
  | cons event events ih =>
    rw [forall_mem_cons] at h
    obtain ⟨⟨hlocation, hsize⟩, hrest⟩ := h
    have hevent : runFileEvent dst fs (mapFile f event) =
        runFileEvent dst fs event := by
      cases event <;> simp only [mapFile, runFileEvent, FileEvent.file] at * <;>
        simp only [hlocation, hsize]
    rw [map_cons, runFileEvents, runFileEvents, hevent]
    split
    · rfl
    · exact ih hrest

/-! ## Runs -/

namespace Run

variable (run : Run r contents files before) (h : Restorable r contents plaintext files)

include run in
theorem packs_known : run.packs.Known fun grouped =>
    ∃ file ∈ files, Grouped r file grouped := createPackInfo_known run.packs_eq nofun
    fun file hfile _ hgrouped => ⟨file, hfile, hgrouped⟩

def sent : List PackInfo := run.order.filterMap run.packs.packs.load

theorem mem_sent {pack : PackInfo} (hpack : pack ∈ run.sent) :
    ∀ grouped ∈ pack.files, ∃ file ∈ files, Grouped r file grouped := by
  obtain ⟨id, -, hload⟩ := mem_filterMap.mp hpack
  exact (run.packs_known id pack hload).2.2

theorem mem_sent_files {grouped : FileInfo} (hgrouped : grouped ∈ run.sent.flatMap (·.files)) :
    ∃ file ∈ files, Grouped r file grouped := by
  obtain ⟨pack, hpack, hmem⟩ := mem_flatMap.mp hgrouped
  exact run.mem_sent hpack grouped hmem

def setting : Setting where
  r := r
  contents := contents
  plaintext := plaintext
  before := before
  packs := run.sent
  files := run.sent.flatMap (·.files)
  distinct := by
    intro first hfirst second hsecond hpath
    obtain ⟨file, hfile, hgrouped⟩ := run.mem_sent_files hfirst
    obtain ⟨other, hother, hgrouped'⟩ := run.mem_sent_files hsecond
    rw [hgrouped.location_eq, hgrouped'.location_eq] at hpath
    obtain rfl := h.eq_of_path_eq hfile hother hpath
    exact hgrouped.unique hgrouped'
  sized := by
    intro grouped hmem
    obtain ⟨file, hfile, hgrouped⟩ := run.mem_sent_files hmem
    rw [hgrouped.size_eq, h.size_eq hfile]
    exact Int.natCast_nonneg _
  known := by
    intro pack hpack use huse
    obtain ⟨-, hmem, -⟩ := h.of_place (run.mem_sent hpack) huse
    exact List.mem_flatMap.mpr ⟨pack, hpack, hmem⟩
  intact := by
    intro pack hpack use huse
    exact (h.of_place (run.mem_sent hpack) huse).1

theorem sound (hok : run.workers.state.failures = []) : Sound (run.setting h) run.workers.state 0 :=
  sound_finished rfl run.steps run.finished hok

variable (hok : run.workers.state.failures = [])
include h hok

theorem event_file {event : FileEvent} (hevent : event ∈ run.workers.state.events) :
    ∃ file ∈ files, Grouped r file event.file :=
  run.mem_sent_files ((run.sound h hok).files.known event hevent)

variable {file : FileInfo}

theorem written (hfile : file ∈ files) {chunk : Nat × Bytes}
    (hchunk : chunk ∈ file.chunks plaintext) : ∃ grouped, Grouped r file grouped ∧
      .write grouped chunk.1 chunk.2 ∈ run.workers.state.events := by
  have hsound := run.sound h hok
  obtain ⟨id, hid, pack, hload, use, huse, hgrouped, hoffset, hdata⟩ :=
    h.exists_place run.packs_eq hfile hchunk
  have hpack : pack ∈ run.sent := mem_filterMap.mpr ⟨id, run.order_perm.mem_iff.mpr hid, hload⟩
  refine ⟨use.file, hgrouped, ?_⟩
  rcases hsound.sent.packs pack hpack with hunsent | hplaces
  · rw [hsound.sent.closed run.closed] at hunsent
    cases hunsent
  · rcases hplaces use huse with hmem | hwritten
    · cases hmem
    · rwa [Setting.event, hoffset, show (run.setting h).plaintext _ = _ from
        hdata] at hwritten

theorem created (hfile : file ∈ files) :
    ∃ grouped, Grouped r file grouped ∧ Created run.workers.state.events grouped := by
  have hsound := run.sound h hok
  obtain ⟨chunk, hchunk⟩ := exists_mem_of_ne_nil _ (h.chunks_ne_nil hfile)
  obtain ⟨grouped, hgrouped, hwritten⟩ := run.written h hok hfile hchunk
  refine ⟨grouped, hgrouped, ?_⟩
  cases hprogress : run.workers.state.inProgress grouped with
  | true =>
    exact (hsound.locks.created grouped hprogress).resolve_left nofun
  | false => exact absurd rfl (hsound.locks.fresh grouped (Or.inl hprogress) _ hwritten)

theorem ordered : (run.workers.state.events.map
    (mapFile (original files))).Pairwise fun first second =>
      ∀ file allocated, second = .create file allocated → first.file ≠ file := by
  rw [pairwise_map]
  refine (run.sound h hok).files.ordered.imp_of_mem ?_
  rintro first second hfirst hsecond hne _ allocated hcreate rfl
  obtain ⟨file, hfile, hgrouped⟩ := run.event_file h hok hfirst
  obtain ⟨other, hother, hgrouped'⟩ := run.event_file h hok hsecond
  cases second with
  | write => cases hcreate
  | create created allocated' =>
    have hfiles := congrArg FileEvent.file hcreate
    rw [mapFile_file, h.original_eq hother hgrouped'] at hfiles
    change other = (mapFile (original files) first).file at hfiles
    rw [mapFile_file, h.original_eq hfile hgrouped] at hfiles
    rw [hfiles] at hgrouped'
    exact hne _ allocated' rfl (hgrouped.unique hgrouped')

theorem schedule : Schedule plaintext files
    (run.workers.state.events.map (mapFile (original files))) := by
  refine ⟨?_, run.ordered h hok, ?_, ?_⟩
  · intro file hfile _
    obtain ⟨grouped, hgrouped, allocated, hmem⟩ := run.created h hok hfile
    refine ⟨allocated, mem_map.mpr ⟨_, hmem, ?_⟩⟩
    rw [mapFile, h.original_eq hfile hgrouped]
  · intro file hfile chunk hchunk
    obtain ⟨grouped, hgrouped, hmem⟩ := run.written h hok hfile hchunk
    refine mem_map.mpr ⟨_, hmem, ?_⟩
    rw [mapFile, h.original_eq hfile hgrouped]
  · intro _ hmapped
    obtain ⟨event, hevent, rfl⟩ := mem_map.mp hmapped
    cases event with
    | create grouped allocated =>
      obtain ⟨file, hfile, hgrouped⟩ := run.event_file h hok hevent
      have horiginal := h.original_eq hfile hgrouped
      exact Or.inl ⟨file, hfile, h.chunks_ne_nil hfile, allocated,
        congrArg (FileEvent.create · _) horiginal⟩
    | write grouped offset data =>
      obtain ⟨use, ⟨pack, hpack, huse⟩, heq⟩ :=
        (run.sound h hok).files.written grouped offset data hevent
      obtain ⟨-, -, file, hfile, hgrouped, hchunk⟩ := h.of_place (run.mem_sent hpack) huse
      cases heq
      exact Or.inr ⟨file, hfile, _, hchunk,
        congrArg (FileEvent.write · _ _) (h.original_eq hfile hgrouped)⟩

theorem runFileEvents_schedule : runFileEvents r.dst (run.workers.state.events.map
      (mapFile (original files))) before = some run.workers.state.fs := by
  rw [runFileEvents_mapFile]
  · exact (run.sound h hok).files.run
  · intro event hevent
    obtain ⟨file, hfile, hgrouped⟩ := run.event_file h hok hevent
    rw [h.original_eq hfile hgrouped, hgrouped.location_eq, hgrouped.size_eq]
    exact ⟨rfl, rfl⟩

theorem read_eq (hwritable : Writable plaintext r.dst files before) (hfile : file ∈ files) :
    run.workers.state.fs.read (r.targetPath file.location) = some (file.content plaintext) := by
  have hschedule := run.schedule h hok
  have hrun := run.runFileEvents_schedule h hok
  have hopened := runFileEvents_opened hrun
  obtain ⟨allocated, hcreated⟩ := hschedule.created file hfile (h.chunks_ne_nil hfile)
  obtain ⟨inode, hleads⟩ := ne_none_iff_exists'.mp (hopened.leads _ hcreated)
  have hwhole : ∀ other ∈ files,
      run.workers.state.fs.lookup (FilePath.join r.dst other.location) = some inode →
      other.content plaintext = file.content plaintext := by
    intro other hother hlookup
    obtain hsame | ⟨hbefore, hbefore'⟩ := hopened.added.shared _ _ _ hlookup hleads
    · rw [h.eq_of_path_eq hother hfile hsame]
    · exact hwritable.coherent other hother file hfile inode hbefore hbefore'
  have hsize : ∀ other ∈ files, 0 ≤ other.size := fun other hother => by
    rw [h.size_eq hother]
    exact Int.natCast_nonneg _
  have hcontent := hschedule.content_eq hwhole hrun hfile hleads
    (Or.inr ⟨file, hfile, hleads, h.chunks_ne_nil hfile, hsize file hfile⟩) (by
      intro other first rest hsplit hlookup _
      have hmem : FileEvent.create other true ∈ _ := hsplit ▸ mem_append_right first mem_cons_self
      have hother := (hschedule.mem_of_create hmem).1
      rw [h.size_eq hother, hwhole other hother hlookup])
  rw [FileSystem.read, show run.workers.state.fs.lookup (r.targetPath file.location) =
    some inode from hleads, map_some, hcontent]

end Run

/-! ## What a run leaves -/

def isCreate : FileEvent → Bool
  | .create _ _ => true
  | .write _ _ _ => false

/-- The path is opened with truncation once, before anything is written. -/
def CreatedOnce (dst path : Bytes) (events : List FileEvent) : Prop :=
  ∃ first event after, events = first ++ event :: after ∧
    isCreate event ∧ eventPath dst event = path ∧
    (∀ other ∈ first, eventPath dst other ≠ path) ∧
    ∀ other ∈ after, eventPath dst other = path → isCreate other = false

theorem Run.createdOnce (run : Run r contents files before)
    (h : Restorable r contents plaintext files)
    (hok : run.workers.state.failures = []) (hfile : file ∈ files) :
    CreatedOnce r.dst (r.targetPath file.location) run.workers.state.events := by
  have hsound := run.sound h hok
  obtain ⟨grouped, hgrouped, allocated, hmem⟩ := run.created h hok hfile
  obtain ⟨first, after, hevents⟩ := append_of_mem hmem
  have hpairs := hsound.files.ordered
  rw [hevents, pairwise_append, pairwise_cons] at hpairs
  have hsame : ∀ other ∈ run.workers.state.events,
      eventPath r.dst other = r.targetPath file.location → other.file = grouped := by
    intro other hother hpath
    refine (run.setting h).distinct _ (hsound.files.known other hother) _
      (hsound.files.known _ hmem) ?_
    exact hpath.trans (congrArg r.targetPath hgrouped.location_eq.symm)
  refine ⟨first, _, after, hevents, rfl, ?_, ?_, ?_⟩
  · exact congrArg r.targetPath hgrouped.location_eq
  · intro other hother hpath
    exact hpairs.2.2 other hother _ mem_cons_self _ allocated rfl
      (hsame other (by simp [hevents, hother]) hpath)
  · intro other hother hpath
    cases other with
    | write => rfl
    | create created again =>
      have hcreated := hsame _ (by simp [hevents, hother]) hpath
      exact absurd hcreated.symm (hpairs.2.1.1 _ hother _ again rfl)

/-- The blobs that a pack has for a file, with their offsets in the file. -/
def placesFor (r : FileRestorer) (packID : ID) (file : FileInfo) :
    Except Failure (List (Blob × Int)) :=
  (r.fileUses packID file).map (List.map fun use => (use.blob, use.fileOffset))

theorem placesIn_congr (packID : ID) (file other : FileInfo)
    (fileOffset : Int) (entries : List PackedBlob) :
    (FileRestorer.placesIn packID file fileOffset entries).map
        (fun use => (use.blob, use.fileOffset)) =
      (FileRestorer.placesIn packID other fileOffset entries).map
        fun use => (use.blob, use.fileOffset) := by
  induction entries generalizing fileOffset with
  | nil => rfl
  | cons packed entries ih =>
    simp only [FileRestorer.placesIn]
    split
    · rw [map_cons, map_cons, ih]
    · exact ih _

theorem Grouped.placesFor_eq (h : Grouped r file grouped) (packID : ID) :
    placesFor r packID grouped = placesFor r packID file := by
  obtain ⟨content, entries, hblobs, hentries, rfl⟩ := h
  rw [placesFor, placesFor, fileUses_groupBlobs hblobs hentries, fileUses_ids hblobs hentries]
  exact congrArg Except.ok (placesIn_congr packID _ _ 0 entries)

/--
If no operation fails, every file has its content after `restoreFiles`, and was
created once before anything was written to it.  Files that are grouped by pack
get the same places as others.
-/
theorem run_restores (run : Run r contents files before)
    (h : Restorable r contents plaintext files)
    (hok : run.workers.state.failures = [])
    (hwritable : Writable plaintext r.dst files before) :
    (∀ file ∈ files, run.workers.state.fs.read (r.targetPath file.location) =
      some (file.content plaintext)) ∧
    (∀ file ∈ files, CreatedOnce r.dst (r.targetPath file.location)
      run.workers.state.events) ∧
    ∀ file ∈ files, ∃ grouped, Grouped r file grouped ∧
      ∀ packID, placesFor r packID grouped = placesFor r packID file := by
  refine ⟨fun file hfile => run.read_eq h hok hwritable hfile,
    fun file hfile => run.createdOnce h hok hfile, fun file hfile => ?_⟩
  obtain ⟨grouped, hgrouped, -⟩ := run.created h hok hfile
  exact ⟨grouped, hgrouped, hgrouped.placesFor_eq⟩

/-! ## Answers without failures -/

theorem exec_acquireWriter (contents : ID → Bytes) {file : FileInfo} {createSize : Int}
    {fs : FileSystem} {wr : Nat}
    (hclosed : s.files (r.targetPath file.location) = none) (hsize : 0 ≤ createSize)
    (hcreate : s.fs.create (r.targetPath file.location) = some fs)
    (hlookup : fs.lookup (r.targetPath file.location) = some wr) :
    exec r contents (.acquireWriter file createSize) s (.ok wr) { s with
      fs := fs
      files := update s.files (r.targetPath file.location) (some wr)
      users := update s.users (r.targetPath file.location) 1
      events := s.events ++ [.create file false] } := by
  simp only [exec, hclosed]
  refine Or.inr ⟨fs, wr, false, ?_, hlookup, rfl, ?_⟩
  · rw [runFileEvent, if_neg (Int.not_lt.mpr hsize)]
    simp only [show s.fs.create (FilePath.join r.dst file.location) = some fs from hcreate]
    rfl
  · rw [if_neg (Int.not_lt.mpr hsize)]

/-- A file is created without preallocation, and the orders of maps are those of the
lists.  The sender closes the channel when all packs are sent. -/
def playback (r : FileRestorer) (contents : ID → Bytes) : Playback (system r contents) where
  answer
  | .receive, s =>
    match hsender : s.sender, hunsent : s.unsent with
    | .sending, pack :: rest =>
      some ⟨(some pack, { s with unsent := rest }), .inl ⟨pack, rest, hsender, hunsent, rfl, rfl⟩⟩
    | .closed, _ => some ⟨(none, s), .inr ⟨hsender, rfl, rfl⟩⟩
    | _, _ => none
  | .rangeFiles files, s => some ⟨(files, s), .refl _, rfl⟩
  | .rangePlaces places, s => some ⟨(places, s), .refl _, rfl⟩
  | .load packID length offset, s =>
    some ⟨(.ok (slice (contents packID) offset length), s), .inl ⟨rfl, rfl⟩⟩
  | .lock file, s =>
    if hfree : s.locked file = false then
      some ⟨((), { s with locked := update s.locked file true }), hfree, rfl⟩
    else none
  | .unlock file, s => some ⟨((), { s with locked := update s.locked file false }), rfl⟩
  | .getInProgress file, s => some ⟨(s.inProgress file, s), rfl, rfl⟩
  | .setInProgress file, s =>
    some ⟨((), { s with inProgress := update s.inProgress file true }), rfl⟩
  | .acquireWriter file createSize, s =>
    if hopens : s.files (r.targetPath file.location) = none ∧ 0 ≤ createSize then do
      let ⟨_, hcreate⟩ ← (s.fs.create (r.targetPath file.location)).attach
      let ⟨wr, hlookup⟩ ← (FileSystem.lookup _ (r.targetPath file.location)).attach
      return ⟨(.ok wr, _), exec_acquireWriter contents hopens.1 hopens.2 hcreate hlookup⟩
    else none
  | .writeAt file wr blob offset, s =>
    if hoffset : 0 ≤ offset then
      some ⟨(none, { s.writeTo wr offset blob with
        events := s.events ++ [.write file offset.toNat blob] }), .inl ⟨hoffset, rfl, rfl⟩⟩
    else none
  | .releaseWriter file, s =>
    let path := r.targetPath file.location
    if hlast : s.users path = 1 then
      some ⟨(none, { s with
        files := update s.files path none
        users := update s.users path 0 }), by simp [system, exec, path, hlast]⟩
    else none
  | .fail failure, s => some ⟨((), s.fail failure), rfl⟩
  | .panic, _ => none
  interfere s :=
    match hsender : s.sender, hunsent : s.unsent with
    | .sending, [] => some ⟨{ s with sender := .closed }, hsender, .inl ⟨hunsent, rfl⟩⟩
    | _, _ => none

/-! ## Two files in one pack -/

def fileA : FileInfo := ⟨1, ascii "a", .ids [.ofNat 1]⟩

def fileB : FileInfo := ⟨1, ascii "b", .ids [.ofNat 2]⟩

def twoFiles : List FileInfo := [fileA, fileB]

def twoPlaintexts (id : ID) : Bytes := if id = .ofNat 1 then [1] else [2]

def twoBlobs (_ : ID) : Bytes := FileRestorer.intactBlob 1 ++ FileRestorer.intactBlob 2

theorem twoFiles_restorable :
    Restorable FileRestorer.sampleRestorer twoBlobs twoPlaintexts twoFiles := by
  refine ⟨by decide, ?_⟩
  intro file hfile
  rcases mem_cons.mp hfile with rfl | hfile
  · refine ⟨[.ofNat 1], rfl, nofun, by decide, ?_⟩
    intro id hid packed hhead
    obtain rfl := mem_singleton.mp hid
    obtain rfl : FileRestorer.sampleEntries[0] = packed := Option.some.inj hhead
    exact ⟨by decide, by decide⟩
  · obtain rfl := mem_singleton.mp hfile
    refine ⟨[.ofNat 2], rfl, nofun, by decide, ?_⟩
    intro id hid packed hhead
    obtain rfl := mem_singleton.mp hid
    obtain rfl : FileRestorer.sampleEntries[1] = packed := Option.some.inj hhead
    exact ⟨by decide, by decide⟩

def twoPacks : Packs :=
  { packs := [(.ofNat 9, ⟨.ofNat 9, twoFiles⟩), (.ofNat 9, ⟨.ofNat 9, [fileA]⟩)]
    packOrder := [.ofNat 9] }

theorem twoFiles_packs :
    createPackInfo FileRestorer.sampleRestorer twoFiles ⟨[], []⟩ = .ok twoPacks := by
  rfl

deriving instance DecidableEq for Sender

theorem exists_run_twoFiles (fs : FileSystem) (P : State → Prop)
    (h : let workers := Pool.play (playback FileRestorer.sampleRestorer twoBlobs)
          (start FileRestorer.sampleRestorer twoPacks [.ofNat 9] fs)
          (.thread ⟨0, by decide⟩ :: .environment :: (List.finRange workerCount).map .thread)
      (∀ i, workers.result? i = some none) ∧ workers.state.sender = .closed ∧
        workers.state.failures = [] ∧ P workers.state) :
    ∃ run : Run FileRestorer.sampleRestorer twoBlobs twoFiles fs,
      run.workers.state.failures = [] ∧ P run.workers.state :=
  ⟨⟨twoPacks, [.ofNat 9], _, twoFiles_packs, .refl _, Pool.steps_play _ _ _,
    Pool.finished_of_result? h.1, h.2.1⟩, h.2.2⟩

theorem run_restores_twoFiles :
    ∃ run : Run FileRestorer.sampleRestorer twoBlobs twoFiles FileSystem.empty,
      run.workers.state.fs.read (ascii "/restore/a") = some [1] ∧
        run.workers.state.fs.read (ascii "/restore/b") = some [2] := by
  obtain ⟨run, hok, -⟩ := exists_run_twoFiles FileSystem.empty (fun _ => True) (by decide +kernel)
  have hwritable : Writable twoPlaintexts FileRestorer.sampleRestorer.dst twoFiles
      FileSystem.empty := by
    refine ⟨fun _ _ _ hspecial => absurd hspecial not_mem_nil, ?_⟩
    intro file _ other _ inode hlookup
    cases hlookup
  obtain ⟨hread, -⟩ := run_restores run twoFiles_restorable hok hwritable
  exact ⟨run, hread fileA (by decide), hread fileB (by decide)⟩

def linkedFiles : FileSystem where
  files := [(ascii "/restore/a", 0), (ascii "/restore/b", 0)]
  specials := []
  dirs := []
  inodes _ := [7, 7, 7]
  fresh := 1
  bounded := by
    intro path inode h
    rw [Store.load_cons, Store.load_cons] at h
    split at h
    · cases h
      decide
    · split at h <;> cases h
      decide

theorem linkedFiles_not_restored :
    ¬ ∀ (r : FileRestorer) (contents plaintext : ID → Bytes)
        (files : List FileInfo) (before : FileSystem)
        (run : Run r contents files before),
      Restorable r contents plaintext files →
      run.workers.state.failures = [] → ∀ file ∈ files,
        run.workers.state.fs.read (r.targetPath file.location) =
          some (file.content plaintext) := by
  intro hall
  obtain ⟨run, hok, hlinked⟩ := exists_run_twoFiles linkedFiles
    (fun s => s.fs.read (ascii "/restore/a") = some [2]) (by decide +kernel)
  have hread := hall _ _ _ _ _ run twoFiles_restorable hok fileA (by decide)
  have hone : fileA.content twoPlaintexts = [1] := by decide
  have hsame := hlinked.symm.trans hread
  rw [hone] at hsame
  cases hsame

end Rapi.Restorer.RestoreFiles
