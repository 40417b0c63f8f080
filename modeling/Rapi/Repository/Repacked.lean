import Rapi.Repository.FailedSaves
import Rapi.Repository.RepackWork

/-!
# What repacking saves

When all goroutines have ended without an error, what is gone from `keepBlobs`
is what occurs in the packs, and was saved once.  The repository may be in any
state when `Repack` is called.
-/

namespace Rapi.Repository

open Foundation Crypto Restic Multiset

namespace Repack

section Outcome

variable {r : Repo} {start s s' : RepoState} {packs : Finset ID}
  {keepBlobs : Finset BlobHandle} {t : State} {results : Role → Option Error}

theorem sound_start : Sound (setting r start) start {.broken} := by
  constructor
  · exact fun _ => Or.inr
  · exact fun _ => id
  · exact fun _ => Or.inl
  · rintro pb ⟨idx, hidx, -, hpb⟩
    exact Or.inl (Or.inl (MasterIndex.mem_content.mpr ⟨idx, hidx, hpb⟩))
  · simp
  · exact fun _ => ⟨fun _ => False.elim, fun _ => False.elim, fun _ => False.elim⟩
  · exact fun hbroken => absurd (mem_singleton_self _) hbroken
  · exact fun hbroken => absurd (mem_singleton_self _) hbroken

/-- What the goroutines start with: the feeder has all packs in hand. -/
private def startShare (order : List ID) : Role → Multiset Token × Share
  | .feeder => (0, (order : Multiset ID), 0, 0)
  | _ => 0

private theorem pool_safe {order : List ID} (hnodup : order.Nodup)
    (hpacks : order.toFinset = packs) : (repackLogic r start packs keepBlobs).PoolSafe (system r)
      (fun
        | .feeder => fun _ => False
        | .downloader _ => (· = 0)
        | .closer => fun _ => False
        | .worker _ => Settled) (fun role => Post role.Ended) (pool r start order keepBlobs) := by
  refine ⟨startShare order, ?_, fun role => ?_⟩
  · have hsum : ∑ role, startShare order role = (0, (order : Multiset ID), 0, 0) := by
      refine Finset.sum_eq_single Role.feeder (fun role _ hne => ?_) (by simp)
      cases role with
      | feeder => exact absurd rfl hne
      | downloader i | closer | worker i => rfl
    rw [hsum]
    refine ⟨?_, ?_, by simp [pool], by simp [pool], by simp [pool], rfl, by simp, by simp [pool]⟩
    · change Sound (setting r start) start (0 + {.broken})
      rw [zero_add]
      exact sound_start
    · simp [pool, ← hpacks, List.toFinset_val, hnodup.dedup]
  · cases role with
    | feeder => exact .once (wp_feeder order)
    | downloader i =>
      refine .loop_forever (fun n hn => ?_) rfl
      rw [hn]
      exact wp_downloader
    | closer => exact .once wp_closer
    | worker i => exact .loop_forever (fun n hn => wp_worker hn) .zero

/-- When all goroutines have ended without an error, every pack is processed
and every blob that was taken is saved. -/
theorem waits_settled (h : Waits r start packs keepBlobs results s t)
    (hnone : ∀ i, results i = none) :
    ∃ m, Sound (setting r start) s (m + {.broken}) ∧ heldBy m = 0 ∧
      Kept r packs keepBlobs s t (0, 0, savedBy m) ∧ t.Fed ∧ t.Drained := by
  obtain ⟨order, final, hnodup, hpacks, hsteps, hfinished, hfinal⟩ := h
  obtain ⟨hsafe, -⟩ := (pool_safe hnodup hpacks).steps
    (Logic.extend_env nofun fun _ _ _ _ hkept hcancel => by
      cases hcancel
      exact ⟨{ hkept with }, ⟨fun _ => id, id, id⟩⟩) hsteps
  obtain ⟨own, hinv, hpost⟩ := hsafe.finished hfinished
  have hsettled : Settled (∑ i, own i) :=
    Finset.sum_induction own Settled (fun _ _ => Settled.add) .zero fun i _ => (hpost i (hnone i)).1
  have hfed := (hpost (.downloader ⟨0, by decide⟩) (hnone _)).2
  have hdrained := (hpost (.worker ⟨0, by decide⟩) (hnone _)).2
  rw [hfinal] at hinv hfed hdrained
  refine ⟨_, hinv.1, hsettled.held, ?_, hfed, hdrained⟩
  have hkept := hinv.2
  have hshare : (∑ i, own i).2 = (0, 0, savedBy (∑ i, own i).1) := by
    rw [hsettled.saved, ← hsettled.packs, ← hsettled.taken]
  rw [hshare] at hkept
  exact hkept

/-- The state when every pack is processed: a blob is saved once if it occurs
in the packs, and otherwise still in `keepBlobs`. -/
structure Complete (r : Repo) (packs : Finset ID)
    (keepBlobs : Finset BlobHandle) (s : RepoState) (t : State) : Prop where
  keep : ∀ bh, bh ∈ keepBlobs ↔ bh ∈ t.keepBlobs ∨ ∃ blob ∈ t.saved, blob.1 = bh
  once : (t.saved.map Prod.fst).Nodup
  hashed : ∀ blob ∈ t.saved, r.hash blob.2 = blob.1.id
  occurs : ∀ blob ∈ t.saved, Occurs r packs s.packs blob.1
  gone : ∀ bh, Occurs r packs s.packs bh → bh ∉ t.keepBlobs

theorem Kept.complete {l : Multiset BlobHandle} (h : Kept r packs keepBlobs s t (0, 0, l))
    (hfed : t.Fed) (hdrained : t.Drained) (hlater : Later s s') :
    Complete r packs keepBlobs s' t := by
  have hprocessed : packs.val = t.processed := by
    have hwork := h.work
    rw [hfed.2, hdrained.2] at hwork
    simpa using hwork
  have hkeep : keepBlobs.val = t.keepBlobs.val + t.saved.map Prod.fst := by
    have hkeep := h.keep
    rwa [add_zero] at hkeep
  constructor
  · intro bh
    rw [← Finset.mem_val, hkeep, mem_add, mem_map]
    rfl
  · have hnodup := keepBlobs.nodup
    rw [hkeep] at hnodup
    exact (nodup_add.mp hnodup).2.1
  · exact h.hashed
  · intro blob hblob
    have hlogged : t.saved.map Prod.fst = l := h.logged
    have hmem := mem_map_of_mem Prod.fst hblob
    rw [hlogged] at hmem
    exact (h.occurs _ (by simpa using hmem)).later hlater
  · rintro bh ⟨id, hid, content, hload, hlisted⟩
    rw [← Finset.mem_val, hprocessed] at hid
    -- the pack has the content with which it was processed
    obtain ⟨content', hload', hgone⟩ := h.processed id hid
    rw [hlater.packs _ _ hload', Option.some.injEq] at hload
    exact hgone bh (hload ▸ hlisted)

theorem Complete.filter (h : Complete r packs keepBlobs s t) {blob : BlobHandle × Bytes}
    (hblob : blob ∈ t.saved) : t.saved.filter (·.1 = blob.1) = {blob} := by
  have hcount := count_eq_one_of_mem h.once (mem_map_of_mem Prod.fst hblob)
  rw [count_map] at hcount
  obtain ⟨only, honly⟩ := card_eq_one.mp hcount
  simp only [eq_comm (a := blob.1)] at honly
  have hmem : blob ∈ t.saved.filter (·.1 = blob.1) := mem_filter.mpr ⟨hblob, rfl⟩
  rw [honly, mem_singleton] at hmem
  rw [honly, hmem]

end Outcome

end Repack

theorem repack_saves_once {r : Repo} {start s : RepoState} {packs : Finset ID}
    {keepBlobs : Finset BlobHandle} {obsolete : Option (Finset ID)}
    {failed : Bool} {t : Repack.State}
    (h : r.Repack start packs keepBlobs obsolete failed s t) :
    (failed → obsolete = none) ∧
    (failed = false → obsolete = some packs ∧
      (∀ bh ∈ keepBlobs, Repack.Occurs r packs s.packs bh →
        ∃ plaintext, t.saved.filter (·.1 = bh) = {(bh, plaintext)} ∧
          r.hash plaintext = bh.id ∧
          ∃ pb ∈ s.idx.lookup bh, pb.packID ∉ start.packs.names ∧
            pb.packID ∈ s.packs.names) ∧
      (∀ blob ∈ t.saved, blob.1 ∈ keepBlobs ∧ Repack.Occurs r packs s.packs blob.1) ∧
      ∀ bh, bh ∈ t.keepBlobs ↔
        bh ∈ keepBlobs ∧ ¬ Repack.Occurs r packs s.packs bh) := by
  cases h with
  | failed _ _ | unflushed _ _ _ => exact ⟨fun _ => rfl, by rintro ⟨⟩⟩
  | @done results mid s t hwaits hnone hflush =>
    obtain ⟨m, hsound, hheld, hkept, hfed, hdrained⟩ := Repack.waits_settled hwaits hnone
    obtain ⟨hsound, hlater, hopen⟩ := hsound.flushedIndex rfl hflush
    have hcomplete := hkept.complete hfed hdrained hlater
    -- nothing is in a packer, so that what was saved has an entry
    have hlisted : ∀ blob ∈ t.saved, ∃ pb ∈ s.idx.lookup blob.1,
        pb.packID ∉ start.packs.names ∧ pb.packID ∈ s.packs.names := by
      intro blob hblob
      have hlogged : t.saved.map Prod.fst = savedBy m := hkept.logged
      have hsaved : blob.1 ∈ savedBy (m + {.broken}) := by
        rw [savedBy_add, ← hlogged]
        exact mem_add.mpr (Or.inl (mem_map_of_mem _ hblob))
      have hin := hsound.saved _ hsaved
      simp only [hopen, heldBy_add, hheld, heldBy_singleton, Token.held,
        add_zero, notMem_zero, false_or] at hin
      obtain ⟨pb, hpb, hbh, hnew, content, hload⟩ := hin
      exact ⟨pb, MasterIndex.mem_lookup.mpr ⟨hpb, hbh⟩, hnew, Store.mem_names_of_load hload⟩
    refine ⟨by rintro ⟨⟩, fun _ => ⟨rfl, ?_, ?_, ?_⟩⟩
    · intro bh hbh hoccurs
      obtain ⟨⟨_, plaintext⟩, hblob, rfl⟩ :=
        ((hcomplete.keep bh).mp hbh).resolve_left (hcomplete.gone bh hoccurs)
      exact ⟨plaintext, hcomplete.filter hblob, hcomplete.hashed _ hblob, hlisted _ hblob⟩
    · intro blob hblob
      exact ⟨(hcomplete.keep _).mpr (Or.inr ⟨blob, hblob, rfl⟩), hcomplete.occurs blob hblob⟩
    · intro bh
      constructor
      · intro hbh
        exact ⟨(hcomplete.keep bh).mpr (Or.inl hbh), fun hoccurs => hcomplete.gone bh hoccurs hbh⟩
      · rintro ⟨hbh, hnot⟩
        refine ((hcomplete.keep bh).mp hbh).resolve_right ?_
        rintro ⟨blob, hblob, rfl⟩
        exact hnot (hcomplete.occurs blob hblob)

/-! ## A run with two packs -/

namespace Repack

/-- All packs are loaded, and no system call fails. -/
def playback (r : Repo) (nonce : Nonce) : Playback (system r) :=
  (Repository.playback nonce fun _ _ => none).extend fun
  | .sendDownload id, _, t =>
    if hopen : t.downloadClosed = false then
      some ⟨(true, { t with downloadQueue := t.downloadQueue ++ [id] }), .inl ⟨rfl, hopen, rfl⟩⟩
    else none
  | .closeDownload, _, t => some ⟨((), { t with downloadClosed := true }), rfl⟩
  | .receiveDownload, _, t =>
    match hqueue : t.downloadQueue with
    | id :: rest =>
      some ⟨(some id, { t with downloadQueue := rest }), .inl ⟨id, rest, hqueue, rfl, rfl⟩⟩
    | [] =>
      if hclosed : t.downloadClosed then some ⟨(none, t), .inr ⟨hqueue, hclosed, rfl, rfl⟩⟩
      else none
  | .download id, s, t => some ⟨(s.packs.load id, t), fun _ hload _ => hload, rfl⟩
  | .sendProcess job, _, t =>
    if hopen : t.processClosed = false then
      some ⟨(true, { t with processQueue := t.processQueue ++ [job] }), .inl ⟨rfl, hopen, rfl⟩⟩
    else none
  | .downloadDone, _, t => some ⟨((), { t with downloadWG := t.downloadWG - 1 }), rfl⟩
  | .waitDownloads, _, t =>
    if hzero : t.downloadWG = 0 then some ⟨((), t), hzero, rfl⟩ else none
  | .closeProcess, _, t => some ⟨((), { t with processClosed := true }), rfl⟩
  | .receiveProcess, _, t =>
    match hqueue : t.processQueue with
    | job :: rest =>
      some ⟨(some job, { t with processQueue := rest }), .inl ⟨job, rest, hqueue, rfl, rfl⟩⟩
    | [] =>
      if hclosed : t.processClosed then some ⟨(none, t), .inr ⟨hqueue, hclosed, rfl, rfl⟩⟩
      else none
  | .systemFault, _, t => some ⟨(false, t), rfl⟩
  | .has bh, _, t => some ⟨(decide (bh ∈ t.keepBlobs), t), rfl, rfl⟩
  | .take bh, _, t =>
    some ⟨(decide (bh ∈ t.keepBlobs), { t with keepBlobs := t.keepBlobs.erase bh }), rfl, rfl⟩
  | .logSaved bh plaintext, _, t =>
    some ⟨((), { t with saved := (bh, plaintext) ::ₘ t.saved }), rfl⟩
  | .progress id, _, t => some ⟨((), { t with processed := id ::ₘ t.processed }), rfl⟩
  | .panic, _, _ => none

def sampleHashed : Repo where
  key := sampleKey
  hash content := ⟨(content ++ List.replicate idSize 1).take idSize, by simp⟩
  noAutoIndexUpdate := true

def sampleHandle (plaintext : Bytes) : BlobHandle := ⟨sampleHashed.hash plaintext, .data⟩

def nonceEnding (byte : UInt8) : Nonce where
  bytes := List.replicate (ivSize - 1) 1 ++ [byte]
  length_bytes := by simp [ivSize]
  valid_bytes := by simp [validNonce, ivSize]

def samplePacker (nonce : Nonce) (plaintexts : List Bytes) : Packer :=
  plaintexts.foldl (fun p text =>
    (p.add .data (sampleHashed.hash text) (sampleKey.encrypt nonce text) none).1) .new

def samplePack (nonce : Nonce) (plaintexts : List Bytes) : Bytes :=
  ((samplePacker nonce plaintexts).finalize sampleKey nonce none none).1.packer.wr

/-- Two blobs, one of which is in the second pack as well. -/
def packA : Bytes := samplePack (nonceEnding 1) [[], [2]]

def packB : Bytes := samplePack (nonceEnding 2) [[]]

def sampleStored : RepoState :=
  { RepoState.new (fun _ _ => 0) 0 with
    packs := [(sampleHashed.hash packA, packA), (sampleHashed.hash packB, packB)] }

private theorem packA_listed : Pack.list sampleKey packA packA.length =
      .ok ([⟨sampleHandle [], 32, 0⟩, ⟨sampleHandle [2], 33, 32⟩], 110) := by
  have hpack : Pack.IsPack sampleKey [⟨sampleHandle [], 32, 0⟩, ⟨sampleHandle [2], 33, 32⟩]
      (samplePacker (nonceEnding 1) [[], [2]]).packer.wr packA :=
    ⟨nonceEnding 1, _, rfl, by decide +kernel⟩
  exact Pack.list_isPack hpack (by simp) (by simp) (by decide)

deriving instance DecidableEq for Error

def downloaders : List (Turn Role) :=
  (List.finRange numRepackWorkers).map fun i => .thread (.downloader i)

def workers : List (Turn Role) := (List.finRange numRepackWorkers).map fun i => .thread (.worker i)

def sampleTurns : List (Turn Role) :=
  .thread .feeder :: downloaders ++ downloaders ++ .thread .closer :: workers ++ workers

abbrev samplePacks : Finset ID := {sampleHashed.hash packA, sampleHashed.hash packB}

abbrev sampleKeep : Finset BlobHandle := {sampleHandle [], sampleHandle [2]}

private theorem sampleStored_repacked :
    ∃ s t, sampleHashed.Repack sampleStored samplePacks sampleKeep (some samplePacks) false s t ∧
      s.packs.load (sampleHashed.hash packA) = some packA := by
  let pb := Repository.playback (nonceEnding 3) fun _ _ => none
  obtain ⟨final, hsteps, hended, hflush⟩ := Pool.exists_steps
    (playback sampleHashed (nonceEnding 3)) (pool sampleHashed sampleStored
      [sampleHashed.hash packA, sampleHashed.hash packB] sampleKeep) sampleTurns
    (fun final => (∀ i, final.result? i = some none) ∧
      ((sampleHashed.flush.play pb final.state.1).any fun found => found.1 = none ∧
        found.2.packs.load (sampleHashed.hash packA) = some packA)) (by decide +kernel)
  obtain ⟨err, s, hflush, rfl, hload⟩ := exists_runs pb _ _ _ hflush
  have hwaits : Waits sampleHashed sampleStored samplePacks sampleKeep (fun _ => none)
      final.state.1 final.state.2 :=
    ⟨_, final, by decide, by decide, hsteps, Pool.finished_of_result? hended, rfl⟩
  exact ⟨s, _, .done hwaits (fun _ => rfl) hflush, hload⟩

end Repack

open Repack in
theorem repack_saves_once_twoPacks :
    ∃ s t, sampleHashed.Repack sampleStored samplePacks sampleKeep (some samplePacks)
        false s t ∧
      ∀ bh ∈ sampleKeep,
        (∃ plaintext, t.saved.filter (·.1 = bh) = {(bh, plaintext)}) ∧
        ∃ pb, pb ∈ s.idx.lookup bh := by
  obtain ⟨s, t, hrepack, hload⟩ := sampleStored_repacked
  obtain ⟨-, hall, -⟩ := (repack_saves_once hrepack).2 rfl
  refine ⟨s, t, hrepack, fun bh hbh => ?_⟩
  have hoccurs : Occurs sampleHashed samplePacks s.packs bh := by
    refine ⟨_, Finset.mem_insert_self _ _, _, hload, _, _, packA_listed, ?_⟩
    rcases Finset.mem_insert.mp hbh with rfl | hbh
    · exact ⟨_, List.mem_cons_self, rfl⟩
    · obtain rfl := Finset.mem_singleton.mp hbh
      exact ⟨_, List.mem_cons_of_mem _ List.mem_cons_self, rfl⟩
  obtain ⟨plaintext, hsaved, -, pb, hpb, -⟩ := hall bh hbh hoccurs
  exact ⟨⟨plaintext, hsaved⟩, pb, hpb⟩

end Rapi.Repository
