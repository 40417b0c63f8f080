import Rapi.Repository.AnyCopy
import Rapi.Repository.LoadIndex
import Rapi.Repository.SavedIndexes

/-!
# What other processes can read

A process opens a repository, calls run, and the process is stopped at any
moment; others open what is there, in the meantime or later.  None of them finds
an entry that it cannot load, and a blob that was saved before a flush can be
loaded ever after.
-/

namespace Rapi.Repository

open Foundation Crypto Restic Option List MasterIndex RepoState Logic

/-- The entry leads to a text with the hash of the blob. -/
def Readable (r : Repo) (packs : Store ID Bytes) (pb : PackedBlob) : Prop :=
  ∃ content plaintext, packs.load pb.packID = some content ∧
    pb.offset + pb.length ≤ content.length ∧
    Decrypts r.key (slice content pb.offset pb.length) plaintext ∧
    r.hash plaintext = pb.id

def AllReadable (r : Repo) (s : RepoState) : Prop :=
  ∀ file ∈ s.indexFiles, ∀ pb ∈ file.2.listed, Readable r s.packs pb

/-- Another process has loaded the index files that are there. -/
def RepoState.Opens (s : RepoState) (mi : MasterIndex) : Prop :=
  ∃ files seed now, List.Perm files (s.indexFiles.map fun file => (file.1, .current file.2)) ∧
      (MasterIndex.new seed now).LoadIndex files mi

/-- The entries can be stored in an index. -/
abbrev RepoState.Fits (s : RepoState) : Prop :=
  ∀ file ∈ s.indexFiles, ∀ pb ∈ file.2.listed,
    pb.offset ≤ Index.maxuint32 ∧ pb.length ≤ Index.maxuint32

/-- The state of the process that has loaded them. -/
def RepoState.reopened (s : RepoState) (mi : MasterIndex) : RepoState :=
  { s with idx := mi, pm := fun _ => ⟨[], false⟩ }

def Repo.reader (r : Repo) (s : RepoState) (mi : MasterIndex)
    (cache : Option (ID → Bool)) : PackReader where
  key := r.key
  hash := r.hash
  idx := mi
  be id := (s.packs.load id).elim (.error .eof) .ok
  cache := cache

/-- The process loads the blob, with any cache and into any buffer. -/
def Loads (r : Repo) (s : RepoState) (mi : MasterIndex) (bh : BlobHandle) : Prop :=
  ∀ cache buf, ∃ plaintext,
    (r.reader s mi cache).loadBlob bh.type bh.id buf = some (.ok plaintext) ∧
      r.hash plaintext = bh.id

section Reading

variable {r : Repo} {s : RepoState} {mi : MasterIndex} {pb : PackedBlob}

theorem RepoState.Opens.mem_content (h : s.Opens mi) : pb ∈ mi.content ↔ s.Listed pb := by
  obtain ⟨files, seed, now, hperm, hload⟩ := h
  rw [(loadIndex_spec hload).2.2]
  constructor
  · rintro ⟨_, hmem, hpb⟩
    obtain ⟨file, hfile, rfl⟩ := mem_map.mp (hperm.mem_iff.mp hmem)
    exact ⟨file, hfile, hpb⟩
  · rintro ⟨file, hfile, hpb⟩
    exact ⟨_, hperm.mem_iff.mpr (mem_map_of_mem hfile), hpb⟩

theorem RepoState.Fits.exists_opens (hfits : s.Fits) : ∃ mi, s.Opens mi := by
  obtain ⟨mi, hload⟩ := @MasterIndex.exists_loadIndex (s.indexFiles.map
    fun file => (file.1, .current file.2)) (.new (fun _ _ => 0) 0) <| by
      rintro _ hfile
      obtain ⟨file, hmem, rfl⟩ := mem_map.mp hfile
      exact hfits file hmem
  exact ⟨mi, _, _, _, .rfl, hload⟩

theorem RepoState.Opens.opened (h : s.Opens mi) : (s.reopened mi).Opened := by
  obtain ⟨files, seed, now, -, idxs, -, hmerge⟩ := h
  rw [foldl_insert] at hmerge
  obtain ⟨_, hsame, hpending, -⟩ := mergeFinalIndexes_spec
    { MasterIndex.new seed now with rest := [] ++ idxs }
  cases hmerge.symm.trans hsame
  exact ⟨hpending, rfl⟩

theorem RepoState.Opens.not_inOpen (h : s.Opens mi) : ¬mi.InOpen pb := by
  obtain ⟨files, seed, now, -, hload⟩ := h
  rintro ⟨idx, hidx, hopen, -⟩
  rw [(loadIndex_spec hload).1] at hidx
  cases hidx

theorem read_of_readable (cache : Option (ID → Bool)) (h : Readable r s.packs pb) :
    ∃ data plaintext, ((r.reader s mi cache).candidate pb).read = .ok data ∧
      Decrypts r.key data plaintext ∧ r.hash plaintext = pb.id := by
  obtain ⟨content, plaintext, hload, hrange, hopen, hhash⟩ := h
  have hread : (r.reader s mi cache).readAt pb.packID pb.offset pb.length =
      .ok (slice content pb.offset pb.length) := by
    simp only [PackReader.readAt, Repo.reader, hload, elim_some]
    exact Pack.readAt_ok hrange
  refine ⟨_, plaintext, ?_, hopen, hhash⟩
  simp only [PackReader.candidate, hread]

theorem Loads.of_readable (hopens : s.Opens mi) (hall : AllReadable r s)
    (hlisted : s.Listed pb) : Loads r s mi pb.toBlobHandle := by
  intro cache buf
  have hgood : ∀ c ∈ ((r.reader s mi cache).idx.lookup pb.toBlobHandle).map
      (r.reader s mi cache).candidate, ∃ data plaintext, c.read = .ok data ∧
        Decrypts r.key data plaintext ∧ r.hash plaintext = pb.id := by
    intro c hc
    obtain ⟨other, hother, rfl⟩ := mem_map.mp hc
    obtain ⟨hmem, hsame⟩ := mem_lookup.mp hother
    obtain ⟨file, hfile, hin⟩ := hopens.mem_content.mp hmem
    obtain ⟨data, plaintext, hread, hopen, hhash⟩ :=
      read_of_readable cache (hall file hfile other hin)
    exact ⟨data, plaintext, hread, hopen, hhash.trans (congrArg BlobHandle.id hsame)⟩
  generalize hcandidates : ((r.reader s mi cache).idx.lookup pb.toBlobHandle).map
    (r.reader s mi cache).candidate = candidates at hgood
  have hne : candidates ≠ [] := by
    rw [← hcandidates, ne_eq, map_eq_nil_iff]
    exact ne_nil_of_mem (mem_lookup.mpr ⟨hopens.mem_content.mpr hlisted, rfl⟩)
  -- a text that decrypts is not shorter than a nonce
  have hlong : ¬TriesShort r.key r.hash pb.id (sortCandidates cache candidates) := by
    rintro ⟨before, c, after, hsplit, -, ⟨data, hread⟩, hshort⟩
    have hc : c ∈ sortCandidates cache candidates := by simp [hsplit]
    obtain ⟨data', plaintext, hread', hopen, -⟩ := hgood c (mem_sortCandidates.mp hc)
    have hlength := c.complete data' hread'
    have := hopen.ivSize_le
    omega
  obtain ⟨result, hrun, hresult⟩ := loadBlobInto_eq hlong ⟨buf, 0⟩
  obtain ⟨c, hc⟩ := exists_mem_of_ne_nil candidates hne
  obtain ⟨data, plaintext, hfacts⟩ := hgood c hc
  have hsome : ((sortCandidates cache candidates).findSome?
      (Candidate.plaintext r.key r.hash pb.id)).isSome := by
    rw [List.findSome?_isSome_iff]
    refine ⟨c, mem_sortCandidates.mpr hc, ?_⟩
    rw [Candidate.plaintext_eq_some.mpr ⟨data, hfacts⟩]
    rfl
  obtain ⟨found, hfound⟩ := isSome_iff_exists.mp hsome
  obtain ⟨-, -, -, -, -, hhash⟩ := Candidate.exists_of_findSome? hfound
  refine ⟨found, ?_, hhash⟩
  rw [PackReader.loadBlob_eq _ _ _ _ 0]
  change loadBlobInto r.key r.hash cache pb.id
    (List.map (r.reader s mi cache).candidate _) ⟨buf, 0⟩ = _
  rw [hcandidates, hrun, (hresult found).mpr hfound]

end Reading

/-! ## What the calls write -/

/-- Nothing is counted, and blobs have the hashes of their data as IDs. -/
def hashed (r : Repo) (start : RepoState) : Setting where
  key := r.key
  fresh _ := False
  passed bh data := r.hash data = bh.id
  start := start

section Written

variable {r : Repo} {s s' : RepoState} {mi : MasterIndex} {m : Multiset Token}

theorem readable_of_written {start : RepoState} {pb : PackedBlob}
    (h : (hashed r start).Written s.packs pb) : Readable r s.packs pb := by
  obtain ⟨content, blobs, area, hload, ⟨_, _, -, rfl⟩, -, hrange, nonce, data, hpassed,
    hslice⟩ := h.stored
  refine ⟨_, data, hload, ?_, ?_, hpassed⟩
  · rw [length_append]
    omega
  · rw [hslice, Decrypts, hashed, Key.take_encrypt, Key.drop_encrypt, Key.open_seal]

theorem AllReadable.of_sound (h : AllReadable r s) (hopens : s.Opens mi)
    (hsound : Sound (hashed r (s.reopened mi)) s' m) (hunbroken : .broken ∉ m)
    (hlater : Later (s.reopened mi) s') : AllReadable r s' := by
  intro file hfile pb hpb
  rcases (hsound.filed hunbroken).files file hfile with hold | hnew
  · obtain ⟨content, plaintext, hload, hfacts⟩ := h file hold pb hpb
    exact ⟨content, plaintext, hlater.packs _ _ hload, hfacts⟩
  · exact readable_of_written ((hnew pb hpb).resolve_left hopens.not_inOpen)

end Written

/-! ## Concurrent calls -/

/-- A caller that gives an ID gives the hash. -/
def Call.Hashed (r : Repo) : Call → Prop
  | .saveBlob _ buf id _ => r.blobID id buf = r.hash buf
  | _ => True

/-- Beside what a call keeps: its blob is known, and it carries nothing if it
succeeds. -/
structure SavedPost (r : Repo) (call : Call) (err : Option SaveError)
    (s : RepoState) (m : Multiset Token) : Prop extends CallPost call err m where
  has : ∀ t buf id storeDuplicate, call = .saveBlob t buf id storeDuplicate →
    s.idx.has ⟨r.blobID id buf, t⟩
  carries : err = none → heldBy m = 0

section Concurrent

variable {ι : Type} [Fintype ι] [DecidableEq ι] {r : Repo} {start s s' : RepoState}
  {mi : MasterIndex} {calls : ι → Call} {pool : Pool RepoState Op Op.Res (Option SaveError) ι}

theorem wp_hashedCall {call : Call} (s : RepoState) (hhashed : call.Hashed r) :
    (logic (hashed r start)).wp system (r.call call) (SavedPost r call) s 0 := by
  cases call with
  | saveBlob t buf id storeDuplicate =>
    have hsave : (logic (hashed r start)).wp system (r.saveBlob t buf id storeDuplicate)
        (BlobPost ⟨r.blobID id buf, t⟩ storeDuplicate) s 0 :=
      wp_saveBlob rfl rfl hhashed.symm fun _ => not_false
    refine wp_bind (wp_mono hsave ?_)
    rintro ⟨newID, known, err⟩ s' m _ hpost
    refine wp_pure fun s'' hlater => ⟨⟨fun _ => hpost.unbroken, hpost.indexed⟩, ?_, ?_⟩
    · rintro _ _ _ _ ⟨⟩
      exact hlater.has _ hpost.has
    · intro hnone
      exact hpost.stored fun failure herr => absurd (hnone.symm.trans herr) nofun
  | flush =>
    refine wp_mono (wp_flush rfl s) fun _ _ _ _ hpost => ?_
    exact ⟨⟨fun hall => hpost.unbroken (hall rfl), hpost.indexed⟩, nofun, fun _ => hpost.held⟩
  | saveIndex =>
    refine wp_mono (wp_saveIndex s) fun _ _ _ _ hpost => ?_
    exact ⟨hpost.callPost, nofun, fun hnone => by rw [hpost.1.success hnone, heldBy_zero]⟩
  | saveFullIndex =>
    refine wp_mono (wp_saveFullIndex s) fun _ _ _ _ hpost => ?_
    exact ⟨hpost.callPost, nofun, fun hnone => by rw [hpost.1.success hnone, heldBy_zero]⟩

theorem calls_safe (hopened : start.Opened) (hhashed : ∀ i, (calls i).Hashed r)
    (hsteps : Relation.ReflTransGen (Pool.Step system)
      ⟨start, fun i => .once (r.call (calls i))⟩ pool) :
    (logic (hashed r start)).PoolSafe system (fun _ _ => False)
        (fun i => SavedPost r (calls i)) pool ∧
      Later start pool.state := by
  have hsafe : (logic (hashed r start)).PoolSafe system (fun _ _ => False)
      (fun i => SavedPost r (calls i)) ⟨start, fun i => .once (r.call (calls i))⟩ := by
    refine ⟨fun _ => 0, ?_, fun i => Safe.once (wp_hashedCall _ (hhashed i))⟩
    rw [Finset.sum_const_zero]
    exact Sound.opened (c := hashed r start) hopened nofun
  exact hsafe.steps nofun hsteps

/-! ## One session after the other -/

/-- A process opens the repository and is stopped while its calls run.  No flush
has failed to upload a packer. -/
inductive Session (r : Repo) (s : RepoState) : RepoState → Prop
  | stopped {ι : Type} [Fintype ι] [DecidableEq ι] {mi : MasterIndex} {calls : ι → Call}
      {pool : Pool RepoState Op Op.Res (Option SaveError) ι} (hopens : s.Opens mi)
      (hhashed : ∀ i, (calls i).Hashed r) (hsteps : Relation.ReflTransGen (Pool.Step system)
        ⟨s.reopened mi, fun i => .once (r.call (calls i))⟩ pool)
      (hflushed : ∀ i err, calls i = .flush →
        (pool.threads i).current = .ret (some (some err)) → err.beforeUpload = false) :
      Session r s pool.state

abbrev Sessions (r : Repo) := Relation.ReflTransGen (Session r)

theorem AllReadable.session (h : AllReadable r s) (hsession : Session r s s') :
    AllReadable r s' ∧ ∀ file ∈ s.indexFiles, file ∈ s'.indexFiles := by
  obtain ⟨hopens, hhashed, hsteps, hflushed⟩ := hsession
  obtain ⟨hsafe, hlater⟩ := calls_safe hopens.opened hhashed hsteps
  obtain ⟨own, hsound, hown⟩ := hsafe.current
  refine ⟨h.of_sound hopens hsound (fun hmem => ?_) hlater, hlater.files⟩
  obtain ⟨i, -, hi⟩ := Multiset.mem_sum.mp hmem
  rcases hown i with hbusy | hidle | ⟨err, hcurrent, hpost⟩
  · exact hbusy hi
  · exact hidle
  · refine hpost.unbroken (fun hflush failure herr => ?_) hi
    rw [herr] at hcurrent
    exact hflushed i failure hflush hcurrent

theorem AllReadable.sessions (h : AllReadable r s) (hsessions : Sessions r s s') :
    AllReadable r s' ∧ ∀ file ∈ s.indexFiles, file ∈ s'.indexFiles := by
  induction hsessions with
  | refl => exact ⟨h, fun _ => id⟩
  | tail _ hsession ih =>
    obtain ⟨hall, hfiles⟩ := ih.1.session hsession
    exact ⟨hall, fun file hfile => hfiles file (ih.2 file hfile)⟩

theorem AllReadable.loads {pb : PackedBlob} (h : AllReadable r s) (hlisted : s.Listed pb)
    (hsessions : Sessions r s s') (hopens : s'.Opens mi) : Loads r s' mi pb.toBlobHandle := by
  obtain ⟨hall, hfiles⟩ := h.sessions hsessions
  obtain ⟨file, hfile, hpb⟩ := hlisted
  exact .of_readable hopens hall ⟨file, hfiles file hfile, hpb⟩

/-- Whatever the sessions have done, all that another process finds in the index
can be loaded. -/
theorem loads_of_sessions (h : AllReadable r s) (hsessions : Sessions r s s')
    (hopens : s'.Opens mi) :
    ∀ pb ∈ mi.content, Loads r s' mi pb.toBlobHandle := fun _ hpb =>
  (h.sessions hsessions).1.loads (hopens.mem_content.mp hpb) .refl hopens

/-- What is known before a flush can be loaded after it. -/
theorem AllReadable.loads_of_flushed {s'' after : RepoState} {mi' : MasterIndex}
    {m : Multiset Token} {bh : BlobHandle} (h : AllReadable r s) (hopens : s.Opens mi)
    (hauto : r.noAutoIndexUpdate = false) (hsound : Sound (hashed r (s.reopened mi)) s' m)
    (hlater : Later (s.reopened mi) s') (hheld : heldBy m = 0) (hindex : ∀ idx, .index idx ∉ m)
    (hunbroken : .broken ∉ m) (hhas : s'.idx.has bh) (hflush : Runs system r.flush s' none s'')
    (hsessions : Sessions r s'' after) (hopens' : after.Opens mi') : Loads r after mi' bh := by
  obtain ⟨hsound', hlater', hnothing⟩ := hsound.flushedIndex rfl hflush
  rcases has_iff.mp (hlater'.has _ hhas) with hpending | ⟨pb, hpb, rfl⟩
  · have hheld' := hsound'.pending bh hpending
    rw [hnothing, hheld, hashed, hopens.opened.pending] at hheld'
    simp at hheld'
  · have hall := h.of_sound hopens hsound' hunbroken (hlater.trans hlater')
    refine hall.loads ?_ hsessions hopens'
    have hfinal := (mem_content_iff.mp hpb).resolve_right (flush_closed hauto hflush pb)
    rcases hsound'.covered pb hfinal with (hold | hnew) | ⟨idx, hidx, -⟩
    · obtain ⟨file, hfile, hin⟩ := hopens.mem_content.mp hold
      exact ⟨file, (hlater.trans hlater').files file hfile, hin⟩
    · exact hnew
    · exact absurd hidx (hindex idx)

/-- What was saved without an error can be loaded after a flush, whatever the
sessions after it do. -/
theorem loads_of_saved {s'' : RepoState} {mi' : MasterIndex}
    {results : ι → Option SaveError} (h : AllReadable r s)
    (hauto : r.noAutoIndexUpdate = false) (hopens : s.Opens mi)
    (hhashed : ∀ i, (calls i).Hashed r)
    (hsteps : Relation.ReflTransGen (Pool.Step system)
      ⟨s.reopened mi, fun i => .once (r.call (calls i))⟩ pool)
    (hfinished : pool.Finished results) (hnone : ∀ i, results i = none)
    (hflush : Runs system r.flush pool.state none s')
    (hsessions : Sessions r s' s'') (hopens' : s''.Opens mi') :
    ∀ i t buf id storeDuplicate, calls i = .saveBlob t buf id storeDuplicate →
      Loads r s'' mi' ⟨r.blobID id buf, t⟩ := by
  intro i t buf id storeDuplicate hcall
  obtain ⟨hsafe, hlater⟩ := calls_safe hopens.opened hhashed hsteps
  obtain ⟨own, hsound, hpost⟩ := hsafe.finished hfinished
  have hheld : heldBy (∑ i, own i) = 0 :=
    Finset.sum_induction own (heldBy · = 0) (fun _ _ h h' => by simp [h, h']) rfl
      fun i _ => (hpost i).carries (hnone i)
  have hkept : (∀ idx, .index idx ∉ ∑ i, own i) ∧ .broken ∉ ∑ i, own i := by
    simp only [Multiset.mem_sum, not_exists, not_and]
    exact ⟨fun idx i _ => (hpost i).indexed (by simp [hnone i]) idx,
      fun i _ => (hpost i).unbroken (by simp [hnone i])⟩
  exact h.loads_of_flushed hopens hauto hsound hlater hheld hkept.1 hkept.2
    ((hpost i).has t buf id storeDuplicate hcall) hflush hsessions hopens'

end Concurrent

/-! ## A blob that is saved and flushed -/

theorem allReadable_sampleStart (r : Repo) : AllReadable r sampleStart := nofun

theorem sampleStart_opens : sampleStart.Opens sampleStart.idx := ⟨[], _, _, .nil, [], .nil, rfl⟩

private theorem exists_flushed : ∃ pool, Relation.ReflTransGen (Pool.Step system)
        ⟨sampleStart, fun i => .once (autoRepo.call (sampleFlushCalls i))⟩ pool ∧
      pool.Finished (fun _ => none) ∧ (∃ mi, pool.state.Opens mi) ∧
      ∃ file ∈ pool.state.indexFiles, samplePacked ∈ file.2.listed := by
  obtain ⟨pool, hsteps, hended, hfits, hlisted⟩ := Pool.exists_steps
    (playback sampleNonce fun _ _ => none)
    ⟨sampleStart, fun i => .once (autoRepo.call (sampleFlushCalls i))⟩ [.thread false, .thread true]
    (fun pool => (∀ i, pool.result? i = some none) ∧ pool.state.Fits ∧
      ∃ file ∈ pool.state.indexFiles, samplePacked ∈ file.2.listed) (by decide +kernel)
  exact ⟨pool, hsteps, Pool.finished_of_result? hended, hfits.exists_opens, hlisted⟩

theorem loads_of_sessions_flushed :
    ∃ s mi, Sessions autoRepo sampleStart s ∧ s.Opens mi ∧
      Loads autoRepo s mi samplePacked.toBlobHandle := by
  obtain ⟨pool, hsteps, hfinished, ⟨mi, hopens⟩, hlisted⟩ := exists_flushed
  have hsession : Session autoRepo sampleStart pool.state :=
    .stopped sampleStart_opens (by rintro (_ | _) <;> trivial) hsteps
      fun i err _ hcurrent => by cases (hfinished i).symm.trans hcurrent
  exact ⟨_, mi, .single hsession, hopens, loads_of_sessions (allReadable_sampleStart _)
    (.single hsession) hopens _ (hopens.mem_content.mpr hlisted)⟩

/-! ## A session after it -/

def decodeAll : List (ID × JsonIndex) → Option (List Index)
  | [] => some []
  | file :: rest => do
      let idx ← Index.decode (.new (fun _ _ => 0) 0) file.1 (.current file.2)
      let idxs ← decodeAll rest
      return idx :: idxs

/-- The index of a process that loads the files in their order. -/
def RepoState.openFiles (s : RepoState) : Option MasterIndex := do
  let idxs ← decodeAll s.indexFiles
  (idxs.foldl MasterIndex.insert (.new (fun _ _ => 0) 0)).mergeFinalIndexes.toOption

theorem forall₂_of_decodeAll {files : List (ID × JsonIndex)} {idxs : List Index}
    (h : decodeAll files = some idxs) : List.Forall₂ (fun (file : ID × IndexFile) idx => ∃ seed now,
      Index.decode (.new seed now) file.1 file.2 = some idx)
      (files.map fun file => (file.1, .current file.2)) idxs := by
  induction files generalizing idxs with
  | nil =>
    cases h
    exact .nil
  | cons file rest ih =>
    obtain ⟨idx, hidx, h⟩ := bind_eq_some_iff.mp h
    obtain ⟨idxs', hidxs, h⟩ := bind_eq_some_iff.mp h
    cases h
    exact .cons ⟨_, _, hidx⟩ (ih hidxs)

theorem RepoState.opens_of_openFiles {s : RepoState} {mi : MasterIndex}
    (h : s.openFiles = some mi) : s.Opens mi := by
  obtain ⟨idxs, hidxs, hmerged⟩ := bind_eq_some_iff.mp h
  refine ⟨_, fun _ _ => 0, 0, .rfl, idxs, forall₂_of_decodeAll hidxs, ?_⟩
  cases hmerge : (idxs.foldl MasterIndex.insert (.new (fun _ _ => 0) 0)).mergeFinalIndexes with
  | error err => simp [hmerge, Except.toOption] at hmerged
  | ok merged =>
    rw [hmerge] at hmerged
    cases hmerged
    rfl

def laterNonce : Nonce where
  bytes := List.replicate ivSize 2
  length_bytes := by simp
  valid_bytes := by decide

def laterCalls : Bool → Call
  | false => .saveBlob .data [5] .null false
  | true => .flush

/-- A process opens the repository, and saves and flushes another blob. -/
def RepoState.later (s : RepoState) : Option RepoState := do
  let mi ← s.openFiles
  let pool := Pool.play (playback laterNonce fun _ _ => none)
    ⟨s.reopened mi, fun i => .once (prefixRepo.call (laterCalls i))⟩ [.thread false, .thread true]
  if ∀ i, pool.result? i = some none then some pool.state else none

theorem RepoState.session_of_later {s s' : RepoState} (h : s.later = some s') :
    Session prefixRepo s s' := by
  obtain ⟨mi, hopens, h⟩ := bind_eq_some_iff.mp h
  obtain ⟨hended, hlater⟩ := ite_none_right_eq_some.mp h
  cases hlater
  refine .stopped (opens_of_openFiles hopens) (by rintro (_ | _) <;> trivial)
    (Pool.steps_play _ _ _) fun i err _ hcurrent => ?_
  cases (Pool.current_of_result? (hended i)).symm.trans hcurrent

theorem loads_of_saved_later :
    ∃ s s' mi, Session prefixRepo s s' ∧ s'.Opens mi ∧
      Loads prefixRepo s' mi ⟨prefixHash [], .data⟩ := by
  let pb := playback sampleNonce fun _ _ => none
  obtain ⟨pool, hsteps, hended, hflush⟩ := Pool.exists_steps pb
    ⟨sampleStart, fun i => .once (prefixRepo.call (sampleFlushCalls i))⟩
    [.thread false, .thread true] (fun pool => (∀ i, pool.result? i = some none) ∧
      ((prefixRepo.flush.play pb pool.state).any fun found =>
        found.1 = none ∧ found.2.later.any (·.Fits))) (by decide +kernel)
  obtain ⟨err, s, hflush, rfl, hlater⟩ := exists_runs pb _ _ _ hflush
  obtain ⟨s', hs', hfits⟩ := (any_eq_true _ _).mp hlater
  have hsession := session_of_later hs'
  obtain ⟨mi, hopens⟩ := (of_decide_eq_true hfits).exists_opens
  exact ⟨s, s', mi, hsession, hopens, loads_of_saved (allReadable_sampleStart _) rfl
    sampleStart_opens (by rintro (_ | _) <;> trivial) hsteps (Pool.finished_of_result? hended)
    (fun _ => rfl) hflush (.single hsession) hopens false .data [] .null false rfl⟩

end Rapi.Repository
