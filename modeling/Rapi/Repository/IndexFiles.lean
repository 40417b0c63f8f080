import Rapi.Repository.ConcurrentSaves

/-!
# What index files list

Calls of `SaveBlob`, `Flush`, `SaveIndex` and `SaveFullIndex` run in any
interleaving.  The index files they write list blobs of packs that are in the
backend, unless a flush could not upload a packer: the packer is then saved
again by the next flush, from a file whose position is anywhere, so that the
second header may be written over the blobs.
-/

namespace Rapi.Repository

open Foundation Crypto Restic Logic

inductive Call
  | saveBlob (t : BlobType) (buf : Bytes) (id : ID) (storeDuplicate : Bool)
  | flush
  | saveIndex
  | saveFullIndex

def Repo.call (r : Repo) : Call → RepoM (Option SaveError)
  | .saveBlob t buf id storeDuplicate => do
      let (_, _, err) ← r.saveBlob t buf id storeDuplicate
      return err
  | .flush => r.flush
  | .saveIndex => saveIndex
  | .saveFullIndex => saveFullIndex

/-- What a call keeps, depending on its failure. -/
structure CallPost (call : Call) (err : Option SaveError) (m : Multiset Token) : Prop where
  unbroken : (call = .flush → ∀ failure, err = some failure →
    failure.beforeUpload = false) → .broken ∉ m
  indexed : err ≠ some .saveIndex → ∀ idx, .index idx ∉ m

theorem IndexPost.callPost {call : Call} {err : Option SaveError} {s : RepoState}
    {m : Multiset Token} (h : IndexPost err s m) : CallPost call err m :=
  ⟨fun _ => h.1.unbroken, h.1.indexed⟩

theorem wp_call {c : Setting} {r : Repo} (call : Call) (s : RepoState) (hkey : c.key = r.key)
    (hfresh : ∀ bh, ¬ c.fresh bh) (hpassed : ∀ t buf id storeDuplicate,
      call = .saveBlob t buf id storeDuplicate → c.passed ⟨r.blobID id buf, t⟩ buf) :
    (logic c).wp system (r.call call) (fun err _ m => CallPost call err m) s 0 := by
  cases call with
  | saveBlob t buf id storeDuplicate =>
    refine wp_bind (wp_mono (wp_saveBlob hkey rfl
      (hpassed t buf id storeDuplicate rfl) fun _ => hfresh _) ?_)
    rintro ⟨newID, known, err⟩ s' m _ hpost
    exact wp_pure fun _ _ => ⟨fun _ => hpost.unbroken, hpost.indexed⟩
  | flush =>
    refine wp_mono (wp_flush hkey s) fun _ _ _ _ hpost => ?_
    exact ⟨fun hall => hpost.unbroken (hall rfl), hpost.indexed⟩
  | saveIndex => exact wp_mono (wp_saveIndex s) fun _ _ _ _ hpost => hpost.callPost
  | saveFullIndex => exact wp_mono (wp_saveFullIndex s) fun _ _ _ _ hpost => hpost.callPost

section Concurrent

variable {ι : Type} (r : Repo) (start : RepoState) (calls : ι → Call)

/-- The index files that were written list blobs that were passed, where they
are in the blob areas of their packs. -/
def ListsPassedBlobs (s : RepoState) : Prop :=
  ∀ file ∈ s.indexFiles, file ∉ start.indexFiles → ∀ pb ∈ file.2.listed,
    ∃ content blobs area nonce i buf id storeDuplicate, s.packs.load pb.packID = some content ∧
      Pack.IsPack r.key blobs area content ∧ pb.toBlob ∈ blobs ∧
      pb.offset + pb.length ≤ area.length ∧
      calls i = .saveBlob pb.type buf id storeDuplicate ∧
      r.blobID id buf = pb.id ∧
      slice content pb.offset pb.length = r.key.encrypt nonce buf

/-- Nothing is counted, and only the calls pass data. -/
private def passedByCalls : Setting where
  key := r.key
  fresh _ := False
  passed bh data := ∃ i id storeDuplicate,
    calls i = .saveBlob bh.type data id storeDuplicate ∧ r.blobID id data = bh.id
  start := start

variable {r start calls}

theorem index_files_list_passed_blobs [Fintype ι] [DecidableEq ι]
    {pool : Pool RepoState Op Op.Res (Option SaveError) ι}
    (hopened : start.Opened) (hfinal : ∀ idx ∈ start.idx.rest, idx.final)
    (hsteps : Relation.ReflTransGen (Pool.Step system)
      ⟨start, fun i => .once (r.call (calls i))⟩ pool)
    (hflushed : ∀ i err, calls i = .flush →
      (pool.threads i).current = .ret (some (some err)) → err.beforeUpload = false) :
    ListsPassedBlobs r start calls pool.state := by
  have hsafe : (logic (passedByCalls r start calls)).PoolSafe system
      (fun _ _ => False) (fun i err _ m => CallPost (calls i) err m)
      ⟨start, fun i => .once (r.call (calls i))⟩ := by
    refine ⟨fun _ => 0, ?_, fun i => Safe.once (wp_call _ _ rfl ?_ ?_)⟩
    · rw [Finset.sum_const_zero]
      exact Sound.opened (c := passedByCalls r start calls) hopened nofun
    · exact fun _ => not_false
    · exact fun t buf id storeDuplicate hcall => ⟨i, id, storeDuplicate, hcall, rfl⟩
  obtain ⟨own, hsound, hown⟩ := (hsafe.steps nofun hsteps).1.current
  have hunbroken : .broken ∉ ∑ i, own i := by
    intro hmem
    obtain ⟨i, -, hi⟩ := Multiset.mem_sum.mp hmem
    rcases hown i with hbusy | hidle | ⟨err, hcurrent, hpost⟩
    · exact hbusy hi
    · exact hidle
    · refine hpost.unbroken (fun hflush failure herr => ?_) hi
      rw [herr] at hcurrent
      exact hflushed i failure hflush hcurrent
  intro file hfile hnew pb hpb
  have hwritten := ((hsound.filed hunbroken).files file hfile).resolve_left hnew pb hpb
  obtain ⟨-, content, blobs, area, hload, hpack, hblob, hrange, nonce, buf,
    ⟨i, id, storeDuplicate, hcall, hid⟩, hslice⟩ := hwritten.resolve_left
    fun ⟨idx, hidx, hopen, _⟩ => by
      rw [hfinal idx hidx] at hopen
      cases hopen
  exact ⟨content, blobs, area, nonce, i, buf, id, storeDuplicate, hload, hpack,
    hblob, hrange, hcall, hid, hslice⟩

end Concurrent

/-! ## A packer that is saved a second time -/

def autoRepo : Repo := { sampleRepo with noAutoIndexUpdate := false }

/-- The beginning of the data, and never the null ID. -/
def prefixHash (data : Bytes) : ID where
  bytes := 1 :: (data ++ List.replicate idSize 0).take (idSize - 1)
  length_bytes := by simp [idSize]

def prefixRepo : Repo := { autoRepo with hash := prefixHash }

theorem prefixHash_ne_null (data : Bytes) : prefixHash data ≠ .null := by
  intro h
  have hbytes := congrArg ID.bytes h
  exact absurd (List.cons.inj hbytes).1 (by decide)

def samplePacked : PackedBlob :=
  Index.packed (autoRepo.blobID .null []) ⟨⟨autoRepo.blobID .null [], .data⟩, 32, 0⟩

def sampleSave : Call := .saveBlob .data [] .null false

def sampleFlushCalls : Bool → Call
  | false => .saveBlob .data [] .null false
  | true => .flush

theorem index_files_list_passed_blobs_flushed :
    ∃ pool, Relation.ReflTransGen (Pool.Step system)
        ⟨sampleStart, fun i => .once (autoRepo.call (sampleFlushCalls i))⟩
        pool ∧
      (∃ file ∈ pool.state.indexFiles, ∃ pb, pb ∈ file.2.listed) ∧
      ListsPassedBlobs autoRepo sampleStart sampleFlushCalls pool.state := by
  obtain ⟨pool, hsteps, hended, file, hfile, hlisted⟩ := Pool.exists_steps
    (playback sampleNonce fun _ _ => none)
    ⟨sampleStart, fun i => .once (autoRepo.call (sampleFlushCalls i))⟩ [.thread false, .thread true]
    (fun pool => pool.result? true = some none ∧
      ∃ file ∈ pool.state.indexFiles, samplePacked ∈ file.2.listed) (by decide +kernel)
  refine ⟨pool, hsteps, ⟨file, hfile, samplePacked, hlisted⟩, ?_⟩
  refine index_files_list_passed_blobs (RepoState.opened_new _ _) nofun hsteps ?_
  rintro (_ | _) err hcall hcurrent
  · cases hcall
  · cases (Pool.current_of_result? hended).symm.trans hcurrent

def sampleRetryCalls : Fin 3 → Call
  | 0 => .saveBlob .data [] .null false
  | _ => .flush

/-- An upload is rejected as long as the blob is intact. -/
def rejectsIntact : Op → RepoState → Option Nat
  | .savePack _ content _, _ => if content.getD ivSize 0 = 0 then some 0 else none
  | _, _ => none

theorem not_index_files_list_passed_blobs :
    ¬ ∀ (ι : Type) [Fintype ι] [DecidableEq ι] (r : Repo) (start : RepoState)
      (calls : ι → Call) (pool : Pool RepoState Op Op.Res (Option SaveError) ι),
      start.Opened → (∀ idx ∈ start.idx.rest, idx.final) →
      Relation.ReflTransGen (Pool.Step system)
        ⟨start, fun i => .once (r.call (calls i))⟩ pool →
      ListsPassedBlobs r start calls pool.state := by
  intro hall
  obtain ⟨pool, hsteps, file, hfile, hlisted, content, hload, hbyte⟩ := Pool.exists_steps
    (playback sampleNonce rejectsIntact)
    ⟨sampleStart, fun i => .once (autoRepo.call (sampleRetryCalls i))⟩
    [.thread 0, .thread 1, .thread 2]
    (fun pool => ∃ file ∈ pool.state.indexFiles, samplePacked ∈ file.2.listed ∧
      ∃ content ∈ pool.state.packs.load samplePacked.packID,
        (slice content samplePacked.offset samplePacked.length).getD ivSize 0 = 1)
    (by decide +kernel)
  obtain ⟨content', -, -, nonce, i, buf, id, storeDuplicate, hload', -, -, -,
    hcall, -, hslice⟩ := hall (Fin 3) autoRepo sampleStart sampleRetryCalls pool
    (RepoState.opened_new _ _) nofun hsteps file hfile nofun samplePacked hlisted
  obtain rfl : content = content' := Option.some.inj (hload.symm.trans hload')
  obtain rfl : buf = [] := by
    match i, hcall with
    | 0, hcall =>
      cases hcall
      rfl
  rw [hslice] at hbyte
  have hzero : (autoRepo.key.encrypt nonce []).getD ivSize 0 = 0 := by
    rw [← nonce.length_bytes, Key.encrypt, List.getD_append_right _ _ _ _ le_rfl, Nat.sub_self]
    rfl
  rw [hzero] at hbyte
  cases hbyte

end Rapi.Repository
