import Rapi.Repository.FailedSaves

/-!
# Saving blobs concurrently

Any number of calls of `SaveBlob` run in any interleaving.  When all of them and
a flush afterwards succeed, every blob that was not in the index before has
exactly one entry there, whatever the number of calls that had it.
-/

namespace Rapi.Repository

open Foundation Crypto Restic Multiset MasterIndex

structure SaveCall where
  t : BlobType
  buf : Bytes

namespace SaveCall

def handle (r : Repo) (call : SaveCall) : BlobHandle := ⟨r.hash call.buf, call.t⟩

def thread (r : Repo) (call : SaveCall) : Thread Op Op.Res (ID × Bool × Option SaveError) :=
  .once (r.saveBlob call.t call.buf .null false)

end SaveCall

section Concurrent

variable {ι : Type} [Fintype ι]

/-- The calls that announced their blob. -/
private def announcements (handle : ι → BlobHandle) (known : ι → Bool) : Multiset Token :=
  ∑ i, accepted (handle i) false (known i)

section Announcements

variable (handle : ι → BlobHandle) (known : ι → Bool)

private theorem mem_announcements {token : Token} (h : token ∈ announcements handle known) :
    ∃ i, token = .announced (handle i) := by
  obtain ⟨i, -, hi⟩ := mem_sum.mp h
  unfold accepted at hi
  split at hi
  · simp at hi
  · exact ⟨i, mem_singleton.mp hi⟩

private theorem heldBy_announcements : heldBy (announcements handle known) = 0 := by
  rw [eq_zero_iff_forall_notMem]
  intro bh hbh
  obtain ⟨token, htoken, hbh⟩ := mem_bind.mp hbh
  obtain ⟨i, rfl⟩ := mem_announcements handle known htoken
  simp [Token.held] at hbh

private theorem count_announcements (bh : BlobHandle) :
    (announcedBy (announcements handle known)).count bh =
      (Finset.univ.filter fun i => handle i = bh ∧ known i = false).card := by
  have hsum : announcedBy (announcements handle known) =
      ∑ i, announcedBy (accepted (handle i) false (known i)) :=
    map_sum (⟨⟨announcedBy, announcedBy_zero⟩, announcedBy_add⟩ :
      Multiset Token →+ Multiset BlobHandle) _ _
  rw [hsum, count_sum', Finset.card_filter]
  refine Finset.sum_congr rfl fun i _ => ?_
  cases known i with
  | true => simp [accepted]
  | false => simp [accepted, count_singleton, eq_comm]

end Announcements

variable {r : Repo} {start : RepoState} (calls : ι → SaveCall)

/-- The blobs that were not in the index are counted. -/
def counted (r : Repo) (start : RepoState) (calls : ι → SaveCall) : Setting where
  key := r.key
  fresh bh := start.idx.has bh = false
  passed bh data := ∃ j, (calls j).handle r = bh ∧ (calls j).buf = data
  start := start

private theorem threads_safe (hopened : start.Opened) :
    (logic (counted r start calls)).PoolSafe system (fun _ _ => False)
      (fun i => BlobPost ((calls i).handle r) false) ⟨start, fun i => (calls i).thread r⟩ := by
  refine ⟨fun _ => 0, ?_, fun i => Logic.Safe.once ?_⟩
  · rw [Finset.sum_const_zero]
    exact Sound.opened (c := counted r start calls) hopened fun _ h => h
  · exact wp_saveBlob rfl rfl ⟨i, rfl, rfl⟩ nofun

private theorem finished_sound [DecidableEq ι] {pool : Pool RepoState Op Op.Res _ ι}
    {results : ι → ID × Bool × Option SaveError} (hopened : start.Opened)
    (hsteps : Relation.ReflTransGen (Pool.Step system)
      ⟨start, fun i => (calls i).thread r⟩ pool) (hfinished : pool.Finished results)
    (hnone : ∀ i, (results i).2.2 = none) : Sound (counted r start calls) pool.state
        (announcements (fun i => (calls i).handle r) fun i => (results i).2.1) ∧
      ∀ i, pool.state.idx.has ((calls i).handle r) := by
  obtain ⟨hsafe, -⟩ := (threads_safe calls hopened).steps nofun hsteps
  obtain ⟨own, hsound, hpost⟩ := hsafe.finished hfinished
  refine ⟨?_, fun i => (hpost i).has⟩
  rw [announcements, ← Finset.sum_congr rfl fun i _ => (hpost i).accepted (hnone i)]
  exact hsound

theorem saved_exactly_once [DecidableEq ι]
    {pool : Pool RepoState Op Op.Res _ ι}
    {results : ι → ID × Bool × Option SaveError} {s : RepoState}
    (hopened : start.Opened)
    (hsteps : Relation.ReflTransGen (Pool.Step system)
      ⟨start, fun i => (calls i).thread r⟩ pool)
    (hfinished : pool.Finished results)
    (hnone : ∀ i, (results i).2.2 = none)
    (hflush : Runs system r.flushPacks pool.state none s) (i : ι)
    (hnew : start.idx.lookup ((calls i).handle r) = []) :
    (∃ pb content nonce j, s.idx.lookup ((calls i).handle r) = [pb] ∧
        s.packs.load pb.packID = some content ∧
        (calls j).handle r = (calls i).handle r ∧
        slice content pb.offset pb.length = r.key.encrypt nonce (calls j).buf) ∧
      (∃! j, (calls j).handle r = (calls i).handle r ∧ (results j).2.1 = false) ∧
      (calls i).handle r ∉ s.idx.pendingBlobs := by
  obtain ⟨hsound, hhas⟩ := finished_sound calls hopened hsteps hfinished hnone
  obtain ⟨hsound, hlater, hheld⟩ := hsound.flushed rfl hflush
  rw [heldBy_announcements] at hheld
  have hfresh : (counted r start calls).fresh ((calls i).handle r) := by
    refine Bool.eq_false_iff.mpr fun hknown => ?_
    rcases has_iff.mp hknown with hmem | ⟨pb, hpb, hbh⟩
    · simp [hopened.pending] at hmem
    · have hin := mem_lookup.mpr ⟨hpb, hbh⟩
      simp [hnew] at hin
  have hcounted : Counted _ _ _ := hsound.counted fun hmiscounted => by
    obtain ⟨j, hj⟩ := mem_announcements _ _ hmiscounted
    cases hj
  have hfiled : Filed _ _ _ := hsound.filed fun hbroken => by
    obtain ⟨j, hj⟩ := mem_announcements _ _ hbroken
    cases hj
  have hpending : (calls i).handle r ∉ s.idx.pendingBlobs := by
    intro hmem
    have hin := hsound.pending _ hmem
    rw [hheld] at hin
    simp [counted, hopened.pending] at hin
  have hannounced := hcounted.announced _ hfresh
  rw [hheld, count_zero, zero_add] at hannounced
  have hentry : ∃ pb ∈ s.idx.content, pb.toBlobHandle = (calls i).handle r :=
    (has_iff.mp (hlater.has _ (hhas i))).resolve_left hpending
  have hone : s.entries ((calls i).handle r) = 1 := by
    have hpos : 0 < s.entries ((calls i).handle r) := countP_pos.mpr hentry
    have hunique := hcounted.unique _ hfresh
    omega
  refine ⟨?_, ?_, hpending⟩
  · have hlength : (s.idx.lookup ((calls i).handle r)).length = 1 := by
      rw [← coe_card, lookup_eq, ← countP_eq_card_filter]
      exact hone
    obtain ⟨pb, hlookup⟩ := List.length_eq_one_iff.mp hlength
    obtain ⟨hpb, hbh⟩ := mem_lookup.mp (hlookup ▸ List.mem_singleton_self pb)
    have hloaded : pb ∉ start.idx.content := fun hpb => by
      have hin := mem_lookup.mpr ⟨hpb, hbh⟩
      simp [hnew] at hin
    obtain ⟨-, content, _, _, hload, -, -, -, nonce, _, ⟨j, hj, rfl⟩, hslice⟩ :=
      (hfiled.entries pb hpb).resolve_left hloaded
    exact ⟨pb, content, nonce, j, hlookup, hload, hj.trans hbh, hslice⟩
  · rw [hone, count_announcements, Finset.card_eq_one] at hannounced
    obtain ⟨j, hj⟩ := hannounced
    have hiff : ∀ k, ((calls k).handle r = (calls i).handle r ∧
        (results k).2.1 = false) ↔ k = j := by
      intro k
      have hk := Finset.ext_iff.mp hj k
      simpa using hk
    exact ⟨j, (hiff j).mpr rfl, fun k hk => (hiff k).mp hk⟩

end Concurrent

def sampleCalls : Bool → SaveCall := fun _ => ⟨.data, []⟩

def samplePacker : Packer :=
  (Packer.new.add .data (sampleRepo.blobID .null []) (sampleKey.encrypt sampleNonce []) none).1

def sampleSaved : RepoState :=
  (sampleStart.announce ⟨sampleRepo.blobID .null [], .data⟩).setManager .data
    ⟨[samplePacker], false⟩

/-- Two calls with the same blob. -/
theorem saved_exactly_once_twice :
    ∃ pool results s, Relation.ReflTransGen (Pool.Step system)
        ⟨sampleStart, fun i => (sampleCalls i).thread sampleRepo⟩ pool ∧
      pool.Finished results ∧
      Runs system sampleRepo.flushPacks pool.state none s ∧
      (∃ pb, s.idx.lookup ((sampleCalls true).handle sampleRepo) = [pb]) ∧
      ∃! j, (sampleCalls j).handle sampleRepo =
        (sampleCalls true).handle sampleRepo ∧ (results j).2.1 = false := by
  let pb := playback sampleNonce fun _ _ => none
  obtain ⟨pool, hsteps, hended, hflush⟩ := Pool.exists_steps pb
    ⟨sampleStart, fun i => (sampleCalls i).thread sampleRepo⟩ [.thread false, .thread true]
    (fun pool => (∀ i, pool.result? i = some (sampleRepo.blobID .null [], i, none)) ∧
      ((sampleRepo.flushPacks.play pb pool.state).any (·.1 = none))) (by decide +kernel)
  obtain ⟨err, s, hflush, rfl⟩ := exists_runs pb _ _ _ hflush
  have hfinished := Pool.finished_of_result? hended
  obtain ⟨⟨packed, _, _, _, hlookup, -⟩, hone, -⟩ := saved_exactly_once sampleCalls
    (RepoState.opened_new _ _) hsteps hfinished (fun _ => rfl) hflush true rfl
  exact ⟨pool, _, s, hsteps, hfinished, hflush, ⟨packed, hlookup⟩, hone⟩

end Rapi.Repository
