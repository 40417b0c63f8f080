import Rapi.Restorer.FileRestorer

/-!
# Restoring from a pack with damaged blobs

When a blob cannot be decrypted, `downloadPack` goes on with the next one but
does not record how far the stream has been read.  From then on the stream is
ahead of the recorded position and every later blob is read at a wrong place.
So all intact blobs are written if no damaged blob comes before one of them in
the pack, and otherwise some are lost unless the pack holds further copies.
-/

namespace Rapi.Restorer

open Foundation Restic List Crypto

namespace FileRestorer

variable (r : FileRestorer)

/-- The bytes at `pos` decrypt to a text with the hash of the blob. -/
def Readable (content : Bytes) (blob : Blob) (pos : Nat) (data : Bytes) : Prop :=
  pos + blob.length ≤ content.length ∧
    r.decryptBlob blob.id (slice content pos blob.length) = some (.ok data)

def Intact (content : Bytes) (blob : Blob) : Prop :=
  ∃ data, r.Readable content blob blob.offset data

instance (content : Bytes) (blob : Blob) : Decidable (r.Intact content blob) :=
  decidable_of_iff (blob.offset + blob.length ≤ content.length ∧
      ((r.decryptBlob blob.id (slice content blob.offset blob.length)).any
        (·.toOption.isSome))) <| by
    unfold Intact Readable
    obtain _ | _ | _ := r.decryptBlob blob.id (slice content blob.offset blob.length) <;>
      simp [Except.toOption]

/-- The write puts this text at this place. -/
def Writes (use : Use) (data : Bytes) (write : Write) : Prop :=
  write.path = r.targetPath use.file.location ∧
    write.offset = use.fileOffset ∧ write.data = data

/-- Every intact blob is written at all its places. -/
def Restored (content : Bytes) (uses : List Use) (writes : List Write) : Prop :=
  ∀ use ∈ uses, ∀ data, r.Readable content use.blob use.blob.offset data →
    ∃ write ∈ writes, r.Writes use data write

def NonOverlapping (uses : List Use) : Prop :=
  ∀ first ∈ uses, ∀ second ∈ uses, first.blob ≠ second.blob →
    first.blob.offset < second.blob.offset ∧
        first.blob.offset + first.blob.length ≤ second.blob.offset ∨
      second.blob.offset < first.blob.offset ∧
        second.blob.offset + second.blob.length ≤ first.blob.offset

/-- No damaged blob comes before an intact one. -/
def DamageLast (content : Bytes) (uses : List Use) : Prop :=
  ∀ damaged ∈ uses, ∀ intact ∈ uses, ¬ r.Intact content damaged.blob →
    r.Intact content intact.blob → intact.blob.offset < damaged.blob.offset

/-- No intact blob can be read at any other place of the pack. -/
def NoCopies (content : Bytes) (uses : List Use) : Prop :=
  ∀ use ∈ uses, r.Intact content use.blob → ∀ pos data,
    pos ≠ use.blob.offset → ¬ r.Readable content use.blob pos data

variable {r}

theorem run_bind {α β : Type} {x : OptionT (StateM Progress) α} {p p' : Progress} {a : α}
    (h : x.run.run p = (some a, p')) (f : α → OptionT (StateM Progress) β) :
    (x >>= f).run.run p = (f a).run.run p' := by
  rw [OptionT.run_bind, Option.elimM, StateT.run_bind, h]
  rfl

theorem run_rangeFiles (files : List FileInfo) (p : Progress) :
    (r.alone.rangeFiles files).run.run p = (some files, p) := rfl

theorem run_rangePlaces (places : List Use) (p : Progress) :
    (r.alone.rangePlaces places).run.run p = (some places, p) := rfl

theorem run_fail (failure : Failure) (p : Progress) :
    (r.alone.fail failure).run.run p = (some (), p) := rfl

theorem run_writePlace (data : Bytes) (use : Use) (p : Progress) :
    (r.alone.writePlace data use).run.run p =
      (some (r.writePlace data use p).1, (r.writePlace data use p).2) := rfl

/-- The blobs of one call, with what was done before. -/
def restoreBlobs (r : FileRestorer) (uses : List Use) (blobs : List Blob) (rd : Bytes)
    (currentBlobEnd : Nat) (p : Progress) : Option (Option Failure) × Progress :=
  (r.alone.restoreBlobs r uses blobs rd currentBlobEnd).run.run p

/-! ## Writing one blob -/

section Quiet

variable (hquiet : ∀ location failure, r.error location failure = none)
include hquiet

theorem sanitizeError_quiet (file : FileInfo) (failure : Option Failure) :
    r.sanitizeError file failure = none := by
  cases failure <;> simp [sanitizeError, hquiet]

theorem writePlaces_quiet (data : Bytes) (places : List Use) (p : Progress) :
    ∃ new p', (r.alone.writePlaces r data places).run.run p = (some none, p') ∧
      p'.writes = p.writes ++ new ∧
      (∀ use ∈ places, ∃ write ∈ new, r.Writes use data write) ∧
      ∀ write ∈ new, write.data = data := by
  induction places generalizing p with
  | nil => exact ⟨[], p, rfl, by simp⟩
  | cons use places ih =>
    obtain ⟨new, p', hrest, hp', hplaces, hdata⟩ := ih (r.writePlace data use p).2
    have hnone := sanitizeError_quiet hquiet use.file (r.writePlace data use p).1
    refine ⟨_ :: new, p', ?_, hp'.trans (append_assoc _ [_] new), ?_, ?_⟩
    · rw [Effects.writePlaces, run_bind (run_writePlace data use p), hnone]
      exact hrest
    · rw [forall_mem_cons]
      refine ⟨⟨_, mem_cons_self, rfl, rfl, rfl⟩, fun other hother => ?_⟩
      obtain ⟨write, hmem, hwrites⟩ := hplaces other hother
      exact ⟨write, mem_cons_of_mem _ hmem, hwrites⟩
    · rw [forall_mem_cons]
      exact ⟨rfl, hdata⟩

/-! ## One blob of the stream -/

variable {blob : Blob} {currentBlobEnd : Nat} {blobs : List Blob}

theorem restoreBlobs_cons (uses : List Use) (hend : currentBlobEnd ≤ blob.offset) (rest : List Blob)
    (stream : Bytes) (drift : Nat) (p : Progress) : let rd := stream.drop (currentBlobEnd + drift)
    let blobEnd := blob.offset + blob.length
    (∃ data new p', r.Readable stream blob (blob.offset + drift) data ∧
        r.restoreBlobs uses (blob :: rest) rd currentBlobEnd p =
          r.restoreBlobs uses rest (stream.drop (blobEnd + drift)) blobEnd p' ∧
        p'.writes = p.writes ++ new ∧
        (∀ use ∈ uses, use.blob.id = blob.id → ∃ write ∈ new, r.Writes use data write) ∧
        ∀ write ∈ new, write.data = data) ∨
      (∀ data, ¬ r.Readable stream blob (blob.offset + drift) data) ∧
        ((r.restoreBlobs uses (blob :: rest) rd currentBlobEnd p).2 = p ∨
          0 < blob.length ∧
            r.restoreBlobs uses (blob :: rest) rd currentBlobEnd p = r.restoreBlobs uses rest
                (stream.drop (currentBlobEnd +
                  (blobEnd + drift - currentBlobEnd))) currentBlobEnd p) := by
  intro rd blobEnd
  have hskip : rd.drop (blob.offset - currentBlobEnd) = stream.drop (blob.offset + drift) := by
    simp only [rd, drop_drop]
    congr 1
    omega
  have hnext : (stream.drop (blob.offset + drift)).drop blob.length =
      stream.drop (blobEnd + drift) := by
    simp only [blobEnd, drop_drop]
    congr 1
    omega
  simp only [restoreBlobs]
  rw [Effects.restoreBlobs, if_neg (by omega), hskip]
  dsimp only
  by_cases hbeyond : rd.length < blob.offset - currentBlobEnd
  · right
    rw [if_pos hbeyond]
    refine ⟨?_, Or.inl rfl⟩
    rintro data ⟨hlength, -⟩
    simp only [rd, length_drop] at hbeyond
    omega
  rw [if_neg hbeyond]
  by_cases hshort : (stream.drop (blob.offset + drift)).length < blob.length
  · right
    rw [if_pos hshort]
    refine ⟨?_, Or.inl rfl⟩
    rintro data ⟨hlength, -⟩
    simp only [length_drop] at hshort
    omega
  rw [if_neg hshort, hnext]
  cases hdecrypt : r.decryptBlob blob.id ((stream.drop (blob.offset + drift)).take blob.length) with
  | none =>
    right
    refine ⟨?_, Or.inl rfl⟩
    rintro data ⟨-, hok⟩
    rw [slice, hdecrypt] at hok
    cases hok
  | some result =>
    have hpos : 0 < ivSize := by decide
    have hiv : ivSize ≤ blob.length := by
      have hlong : ¬_ < ivSize := fun h => by
        rw [decryptBlob_eq_none.mpr h] at hdecrypt
        cases hdecrypt
      exact (Nat.not_lt.mp hlong).trans (length_take_le _ _)
    have hlength : blob.offset + drift + blob.length ≤ stream.length := by
      simp only [length_drop] at hshort
      omega
    simp only [run_bind (run_rangePlaces _ p)]
    cases result with
    | ok data =>
      left
      obtain ⟨new, p', hwrites, hp', hplaces, hdata⟩ :=
        writePlaces_quiet hquiet data (uses.filter (·.blob.id = blob.id)) p
      refine ⟨data, new, p', ⟨hlength, hdecrypt⟩, run_bind hwrites _, hp', ?_, hdata⟩
      intro use huse hid
      exact hplaces use (by simp [huse, hid])
    | error failure =>
      right
      have hnone : (uses.filter (·.blob.id = blob.id)).findSome?
          (fun use => r.sanitizeError use.file (some failure)) = none := by
        simp [sanitizeError_quiet hquiet]
      refine ⟨?_, Or.inr ⟨?_, ?_⟩⟩
      · rintro data ⟨-, hok⟩
        rw [slice, hdecrypt] at hok
        cases hok
      · omega
      · have hskipped : currentBlobEnd + (blobEnd + drift - currentBlobEnd) = blobEnd + drift := by
          omega
        rw [run_bind (run_fail failure p), hnone, hskipped]

/-! ## The whole stream -/

/-- The blobs follow each other in the pack, from `start` on. -/
def InOrder (start : Nat) (blobs : List Blob) : Prop :=
  (∀ blob ∈ blobs, start ≤ blob.offset) ∧
    blobs.Pairwise fun first second =>
      first.offset < second.offset ∧ first.offset + first.length ≤ second.offset

omit hquiet in
theorem InOrder.tail {start : Nat} {rest : List Blob} (h : InOrder start (blob :: rest)) :
    InOrder (blob.offset + blob.length) rest ∧ InOrder start rest := by
  obtain ⟨hstart, hpairs⟩ := h
  rw [pairwise_cons] at hpairs
  exact ⟨⟨fun b hb => (hpairs.1 b hb).2, hpairs.2⟩, fun b hb => hstart b (by simp [hb]), hpairs.2⟩

theorem restoreBlobs_sound (uses : List Use) (horder : InOrder currentBlobEnd blobs)
    (stream : Bytes) (drift : Nat) (p : Progress) :
    ∃ new, (r.restoreBlobs uses blobs (stream.drop (currentBlobEnd + drift))
        currentBlobEnd p).2.writes = p.writes ++ new ∧
      ∀ write ∈ new, ∃ blob ∈ blobs, ∃ ahead ≥ drift,
        r.Readable stream blob (blob.offset + ahead) write.data := by
  induction blobs generalizing currentBlobEnd drift p with
  | nil => exact ⟨[], (append_nil _).symm, by simp⟩
  | cons blob rest ih =>
    have hend := horder.1 blob (by simp)
    rcases restoreBlobs_cons hquiet uses hend rest stream drift p with
      ⟨data, new, p', hread, hstep, hp', -, hdata⟩ |
      ⟨-, hstop | ⟨-, hstep⟩⟩
    · obtain ⟨more, hmore, hsound⟩ := ih horder.tail.1 drift p'
      refine ⟨new ++ more, by rw [hstep, hmore, hp', append_assoc], ?_⟩
      intro write hwrite
      rcases mem_append.mp hwrite with hwrite | hwrite
      · exact ⟨blob, by simp, drift, le_rfl, by
          rw [hdata write hwrite]
          exact hread⟩
      · obtain ⟨b, hb, hahead⟩ := hsound write hwrite
        exact ⟨b, by simp [hb], hahead⟩
    · exact ⟨[], by simp [hstop]⟩
    · obtain ⟨more, hmore, hsound⟩ := ih horder.tail.2
        (blob.offset + blob.length + drift - currentBlobEnd) p
      refine ⟨more, by rw [hstep, hmore], ?_⟩
      intro write hwrite
      obtain ⟨b, hb, ahead, hahead, hread⟩ := hsound write hwrite
      exact ⟨b, by simp [hb], ahead, by omega, hread⟩

theorem restoreBlobs_complete (uses : List Use) (horder : InOrder currentBlobEnd blobs)
    (stream : Bytes) (hlast : blobs.Pairwise fun first second =>
      (∃ data, r.Readable stream second second.offset data) →
      ∃ data, r.Readable stream first first.offset data) (p : Progress) (hblob : blob ∈ blobs)
    {data : Bytes} (hread : r.Readable stream blob blob.offset data) {use : Use} (huse : use ∈ uses)
    (hid : use.blob.id = blob.id) :
    ∃ write ∈ (r.restoreBlobs uses blobs (stream.drop currentBlobEnd)
      currentBlobEnd p).2.writes, r.Writes use data write := by
  induction blobs generalizing currentBlobEnd p with
  | nil => simp at hblob
  | cons first rest ih =>
    have hend := horder.1 first (by simp)
    rw [pairwise_cons] at hlast
    rcases restoreBlobs_cons hquiet uses hend rest stream 0 p with
      ⟨firstData, new, p', hfirst, hstep, hp', hplaces, -⟩ | ⟨hdamaged, -⟩
    · rw [Nat.add_zero] at hstep
      rw [hstep, Nat.add_zero]
      rcases mem_cons.mp hblob with rfl | hblob
      · obtain ⟨write, hwrite, hwrites⟩ := hplaces use huse hid
        obtain rfl : firstData = data := by
          have := hfirst.2.symm.trans hread.2
          simpa using this
        obtain ⟨more, hmore, -⟩ := restoreBlobs_sound hquiet uses horder.tail.1 stream 0 p'
        rw [Nat.add_zero] at hmore
        exact ⟨write, by rw [hmore, hp']; simp [hwrite], hwrites⟩
      · exact ih horder.tail.1 hlast.2 p' hblob
    · exfalso
      obtain ⟨firstData, hfirst⟩ : ∃ data, r.Readable stream first first.offset data := by
        rcases mem_cons.mp hblob with rfl | hblob
        · exact ⟨data, hread⟩
        · exact hlast.1 blob hblob ⟨data, hread⟩
      exact hdamaged firstData hfirst

/-- A blob behind a damaged one is not written, if there are no copies of it. -/
theorem restoreBlobs_misses (uses : List Use) (horder : InOrder currentBlobEnd blobs)
    (stream : Bytes) (hids : (blobs.map (·.id)).Nodup) (p : Progress) {damaged : Blob}
    (hdamaged : damaged ∈ blobs) (hblob : blob ∈ blobs) (hbefore : damaged.offset < blob.offset)
    (hunreadable : ∀ data, ¬ r.Readable stream damaged damaged.offset data)
    (hcopies : ∀ pos data, pos ≠ blob.offset → ¬ r.Readable stream blob pos data) :
    ∃ new, (r.restoreBlobs uses blobs (stream.drop currentBlobEnd)
        currentBlobEnd p).2.writes = p.writes ++ new ∧
      ∀ write ∈ new, r.hash write.data ≠ blob.id := by
  induction blobs generalizing currentBlobEnd p with
  | nil => simp at hblob
  | cons first rest ih =>
    have hend := horder.1 first (by simp)
    obtain ⟨hfresh, hids'⟩ := nodup_cons.mp hids
    have hlater : blob ∈ rest := by
      rcases mem_cons.mp hblob with rfl | hblob
      · rcases mem_cons.mp hdamaged with rfl | hdamaged
        · omega
        · have := (pairwise_cons.mp horder.2).1 damaged hdamaged
          omega
      · exact hblob
    have hne : first.id ≠ blob.id := by
      intro hsame
      exact hfresh (mem_map.mpr ⟨blob, hlater, hsame.symm⟩)
    rcases restoreBlobs_cons hquiet uses hend rest stream 0 p with
      ⟨data, new, p', hread, hstep, hp', -, hdata⟩ |
      ⟨-, hstop | ⟨hpos, hstep⟩⟩
    · have hdamaged' : damaged ∈ rest := by
        rcases mem_cons.mp hdamaged with rfl | hdamaged
        · exact absurd hread (hunreadable data)
        · exact hdamaged
      obtain ⟨more, hmore, hmisses⟩ := ih horder.tail.1 hids' p' hdamaged' hlater
      rw [Nat.add_zero] at hstep
      refine ⟨new ++ more, ?_, ?_⟩
      · rw [hstep, Nat.add_zero, hmore, hp', append_assoc]
      · intro write hwrite
        rcases mem_append.mp hwrite with hwrite | hwrite
        · rw [hdata write hwrite, (decryptBlob_ok hread.2).1]
          exact hne
        · exact hmisses write hwrite
    · exact ⟨[], by rw [Nat.add_zero] at hstop; simp [hstop]⟩
    · -- from here on everything is read too far behind
      obtain ⟨more, hmore, hsound⟩ := restoreBlobs_sound hquiet uses horder.tail.2 stream
        (first.offset + first.length + 0 - currentBlobEnd) p
      rw [Nat.add_zero] at hstep
      refine ⟨more, by rw [hstep]; exact hmore, ?_⟩
      intro write hwrite hhash
      obtain ⟨b, hb, ahead, hahead, hread⟩ := hsound write hwrite
      have hid : b.id = blob.id := by rw [← (decryptBlob_ok hread.2).1, hhash]
      obtain rfl := inj_on_of_nodup_map hids' hb hlater hid
      exact hcopies _ _ (by omega) hread

end Quiet

/-! ## The blobs of a pack -/

section Pack

variable {r : FileRestorer} {packID : ID}

variable {use : Use} {uses : List Use} {files : List FileInfo}

theorem mem_placesIn {file : FileInfo} {fileOffset : Int}
    {entries : List PackedBlob} (h : use ∈ placesIn packID file fileOffset entries) :
    use.file = file ∧ ∃ packed ∈ entries, packed.packID = packID ∧
      packed.toBlob = use.blob := by
  induction entries generalizing fileOffset with
  | nil => simp [placesIn] at h
  | cons packed entries ih =>
    have hrest : use ∈ placesIn packID file (fileOffset + packed.length - extension) entries →
        use.file = file ∧ ∃ found ∈ packed :: entries,
          found.packID = packID ∧ found.toBlob = use.blob := by
      intro hmem
      obtain ⟨hfile, found, hfound, hspec⟩ := ih hmem
      exact ⟨hfile, found, by simp [hfound], hspec⟩
    simp only [placesIn] at h
    split at h
    · rename_i hpack
      rcases mem_cons.mp h with rfl | h
      · exact ⟨rfl, packed, by simp, hpack, rfl⟩
      · exact hrest h
    · exact hrest h

theorem forEachBlob_spec {ids : List ID} {entries : List PackedBlob}
    (h : r.forEachBlob ids = .ok entries) : List.Forall₂ (fun id packed => packed.id = id ∧
      (r.idx ⟨id, .data⟩).head? = some packed) ids entries := by
  induction ids generalizing entries with
  | nil =>
    cases h
    exact .nil
  | cons id ids ih =>
    simp only [forEachBlob] at h
    split at h
    · cases h
    · rename_i first others hidx
      split at h
      · cases h
      · rename_i rest hrest
        cases h
        refine .cons ⟨congrArg BlobHandle.id
          (r.idx_handle ⟨id, .data⟩ first (by simp [hidx])), ?_⟩ (ih hrest)
        rw [hidx]
        rfl

theorem mem_forEachBlob {ids : List ID} {entries : List PackedBlob}
    (h : r.forEachBlob ids = .ok entries) {packed : PackedBlob} (hpacked : packed ∈ entries) :
    (r.idx ⟨packed.id, .data⟩).head? = some packed := by
  have hspec := forEachBlob_spec h
  clear h
  induction hspec with
  | nil => cases hpacked
  | cons hfirst _ ih =>
    obtain rfl | hpacked := mem_cons.mp hpacked
    · rw [hfirst.1]
      exact hfirst.2
    · exact ih hpacked

theorem find?_of_head? {id : ID} {packed : PackedBlob}
    (hhead : (r.idx ⟨id, .data⟩).head? = some packed) (hpack : packed.packID = packID) :
    (r.idx ⟨id, .data⟩).find? (·.packID = packID) = some packed := by
  cases hidx : r.idx ⟨id, .data⟩ with
  | nil => simp [hidx] at hhead
  | cons first others =>
    obtain rfl : first = packed := by simpa [hidx] using hhead
    simp [hpack]

theorem fileUses_entry {file : FileInfo} (h : r.fileUses packID file = .ok uses)
    (huse : use ∈ uses) : ∃ packed, (r.idx ⟨use.blob.id, .data⟩).find? (·.packID = packID) =
      some packed ∧ packed.toBlob = use.blob := by
  unfold fileUses at h
  split at h
  · split at h
    · cases h
    · rename_i entries hentries
      cases h
      obtain ⟨-, packed, hpacked, hpack, hblob⟩ := mem_placesIn huse
      refine ⟨packed, ?_, hblob⟩
      rw [← hblob]
      exact find?_of_head? (mem_forEachBlob hentries hpacked) hpack
  · cases h
    obtain ⟨blob, -, hblob⟩ := mem_filterMap.mp huse
    obtain ⟨packed, hfind, rfl⟩ := Option.map_eq_some_iff.mp hblob
    have hid : packed.id = blob.id := congrArg BlobHandle.id
      (r.idx_handle ⟨blob.id, .data⟩ packed (mem_of_find?_eq_some hfind))
    exact ⟨packed, by rw [hid]; exact hfind, rfl⟩

theorem allUses_entry (h : r.allUses packID files = .ok uses) (huse : use ∈ uses) :
    ∃ packed, (r.idx ⟨use.blob.id, .data⟩).find? (·.packID = packID) =
      some packed ∧ packed.toBlob = use.blob := by
  induction files generalizing uses with
  | nil =>
    cases h
    simp at huse
  | cons file files ih =>
    simp only [allUses] at h
    split at h
    · cases h
    · rename_i first hfirst
      split at h
      · cases h
      · rename_i rest hrest
        cases h
        rcases mem_append.mp huse with huse | huse
        · exact fileUses_entry hfirst huse
        · exact ih hrest huse

theorem blob_eq_of_id_eq (h : r.allUses packID files = .ok uses)
    {first second : Use} (hfirst : first ∈ uses) (hsecond : second ∈ uses)
    (hid : first.blob.id = second.blob.id) : first.blob = second.blob := by
  obtain ⟨packed, hfind, hblob⟩ := allUses_entry h hfirst
  obtain ⟨packed', hfind', hblob'⟩ := allUses_entry h hsecond
  rw [hid, hfind', Option.some.injEq] at hfind
  rw [← hblob, ← hblob', hfind]

theorem mem_sortedBlobs {blob : Blob} :
    blob ∈ sortedBlobs uses ↔ ∃ use ∈ uses, use.blob = blob := by
  rw [sortedBlobs, mem_insertionSort, mem_dedup, mem_map]

theorem sortedBlobs_nodup (uses : List Use) : (sortedBlobs uses).Nodup :=
  (perm_insertionSort _ _).nodup_iff.mpr (nodup_dedup _)

theorem sortedBlobs_ids_nodup (h : r.allUses packID files = .ok uses) :
    ((sortedBlobs uses).map (·.id)).Nodup := by
  apply (sortedBlobs_nodup uses).map_on
  intro first hfirst second hsecond hid
  obtain ⟨use, huse, rfl⟩ := mem_sortedBlobs.mp hfirst
  obtain ⟨other, hother, rfl⟩ := mem_sortedBlobs.mp hsecond
  exact blob_eq_of_id_eq h huse hother hid

private theorem foldl_min_le (list : List Nat) (init : Nat) :
    list.foldl min init ≤ init ∧ ∀ n ∈ list, list.foldl min init ≤ n := by
  induction list generalizing init with
  | nil => simp
  | cons first list ih =>
    obtain ⟨hinit, hlist⟩ := ih (min init first)
    simp only [foldl_cons, forall_mem_cons]
    exact ⟨by omega, by omega, hlist⟩

private theorem le_foldl_max (list : List Nat) (init : Nat) :
    init ≤ list.foldl max init ∧ ∀ n ∈ list, n ≤ list.foldl max init := by
  induction list generalizing init with
  | nil => simp
  | cons first list ih =>
    obtain ⟨hinit, hlist⟩ := ih (max init first)
    simp only [foldl_cons, forall_mem_cons]
    exact ⟨by omega, by omega, hlist⟩

theorem rangeStart_le (h : use ∈ uses) : rangeStart uses ≤ use.blob.offset :=
  (foldl_min_le _ _).2 _ (mem_map_of_mem (f := (·.blob.offset)) h)

theorem le_rangeEnd (h : use ∈ uses) : use.blob.offset + use.blob.length ≤ rangeEnd uses :=
  (le_foldl_max _ _).2 _ (mem_map_of_mem
    (f := fun use : Use => use.blob.offset + use.blob.length) h)

theorem sortedBlobs_inOrder (h : NonOverlapping uses) :
    InOrder (rangeStart uses) (sortedBlobs uses) := by
  constructor
  · intro blob hblob
    obtain ⟨use, huse, rfl⟩ := mem_sortedBlobs.mp hblob
    exact rangeStart_le huse
  · have hsorted : (sortedBlobs uses).Pairwise (·.offset ≤ ·.offset) := pairwise_insertionSort _ _
    have hpairs := (hsorted.and (sortedBlobs_nodup uses))
    apply hpairs.imp_of_mem
    rintro first second hfirst hsecond ⟨hle, hne⟩
    obtain ⟨use, huse, rfl⟩ := mem_sortedBlobs.mp hfirst
    obtain ⟨other, hother, rfl⟩ := mem_sortedBlobs.mp hsecond
    rcases h use huse other hother hne with hbefore | hafter
    · exact hbefore
    · omega

theorem readable_take_iff {r : FileRestorer} {content : Bytes} {blob : Blob}
    {pos stop : Nat} {data : Bytes} : r.Readable (content.take stop) blob pos data ↔
      r.Readable content blob pos data ∧ pos + blob.length ≤ stop := by
  have hslice : pos + blob.length ≤ stop →
      slice (content.take stop) pos blob.length = slice content pos blob.length := by
    intro hstop
    simp only [slice, drop_take, take_take]
    congr 1
    omega
  constructor
  · rintro ⟨hlength, hdecrypt⟩
    simp only [length_take] at hlength
    rw [hslice (by omega)] at hdecrypt
    exact ⟨⟨by omega, hdecrypt⟩, by omega⟩
  · rintro ⟨⟨hlength, hdecrypt⟩, hstop⟩
    refine ⟨by simp only [length_take]; omega, ?_⟩
    rw [hslice hstop]
    exact hdecrypt

end Pack

/-! ## Damaged packs -/

theorem downloadPack_writes {packID : ID} {content : Bytes} {files : List FileInfo}
    {uses : List Use} (huses : r.allUses packID files = .ok uses) (p : Progress) :
    (r.downloadPack packID content files p).2 = (r.restoreBlobs uses (sortedBlobs uses)
        ((content.take (rangeEnd uses)).drop (rangeStart uses)) (rangeStart uses) p).2 := by
  have hrange : slice content (rangeStart uses) (rangeEnd uses - rangeStart uses) =
        (content.take (rangeEnd uses)).drop (rangeStart uses) := drop_take.symm
  have hload (rd : Bytes) : (pure (.ok rd) : OptionT (StateM Progress)
      (Except Failure Bytes)).run.run p = (some (.ok rd), p) := rfl
  rw [downloadPack, Effects.downloadPack, run_bind (run_rangeFiles files p), huses]
  simp only [run_bind (hload _), hrange, restoreBlobs]
  -- whatever the result is, nothing is written any more
  rw [OptionT.run_bind, Option.elimM, StateT.run_bind]
  obtain ⟨_ | _ | failure, p'⟩ := StateT.run (OptionT.run (r.alone.restoreBlobs r uses
    (sortedBlobs uses) _ _)) p <;> rfl

/--
All intact blobs are written if no damaged blob comes before one of them; and
without copies of intact blobs this is the only way to have them all written.
-/
theorem downloadPack_restores {r : FileRestorer}
    (hquiet : ∀ location failure, r.error location failure = none)
    {packID : ID} {files : List FileInfo} {uses : List Use}
    (huses : r.allUses packID files = .ok uses)
    (hoverlap : NonOverlapping uses) (content : Bytes)
    (inProgress : List FileInfo) :
    let writes := (r.downloadPack packID content files
      { inProgress := inProgress, writes := [] }).2.writes
    (r.DamageLast content uses → r.Restored content uses writes) ∧
      (r.NoCopies content uses → r.Restored content uses writes → r.DamageLast content uses) := by
  intro writes
  let stream := content.take (rangeEnd uses)
  have horder := sortedBlobs_inOrder hoverlap
  have hstream : ∀ use ∈ uses, ∀ data, r.Readable stream use.blob use.blob.offset data ↔
        r.Readable content use.blob use.blob.offset data := by
    intro use huse data
    simp [stream, readable_take_iff, le_rangeEnd huse]
  have hwrites : writes = (r.restoreBlobs uses (sortedBlobs uses)
      (stream.drop (rangeStart uses)) (rangeStart uses)
      { inProgress := inProgress, writes := [] }).2.writes :=
    congrArg Progress.writes (downloadPack_writes huses _)
  constructor
  · intro hlast use huse data hread
    rw [hwrites]
    refine restoreBlobs_complete hquiet uses horder stream ?_ _
      (mem_sortedBlobs.mpr ⟨use, huse, rfl⟩) ((hstream use huse data).mpr hread) huse rfl
    apply horder.2.imp_of_mem
    rintro first second hfirst hsecond ⟨hbefore, -⟩ ⟨secondData, hintact⟩
    obtain ⟨firstUse, huse₁, rfl⟩ := mem_sortedBlobs.mp hfirst
    obtain ⟨secondUse, huse₂, rfl⟩ := mem_sortedBlobs.mp hsecond
    by_contra hdamaged
    have hnot : ¬ r.Intact content firstUse.blob := by
      rintro ⟨firstData, hread⟩
      exact hdamaged ⟨firstData, (hstream firstUse huse₁ firstData).mpr hread⟩
    have hlate := hlast firstUse huse₁ secondUse huse₂ hnot
      ⟨secondData, (hstream secondUse huse₂ secondData).mp hintact⟩
    omega
  · intro hcopies hrestored damaged hdamaged intact hintact hnot hread
    by_contra hlate
    have hne : damaged.blob ≠ intact.blob := by
      intro hsame
      rw [hsame] at hnot
      exact hnot hread
    have hbefore : damaged.blob.offset < intact.blob.offset := by
      rcases hoverlap damaged hdamaged intact hintact hne with h | h <;> omega
    obtain ⟨data, hdata⟩ := hread
    obtain ⟨new, hnew, hmisses⟩ := restoreBlobs_misses hquiet uses horder
      stream (sortedBlobs_ids_nodup huses) { inProgress := inProgress, writes := [] }
      (mem_sortedBlobs.mpr ⟨damaged, hdamaged, rfl⟩)
      (mem_sortedBlobs.mpr ⟨intact, hintact, rfl⟩) hbefore
      (fun other hother => hnot ⟨other, (hstream damaged hdamaged other).mp hother⟩)
      (fun pos other hpos hother =>
        hcopies intact hintact ⟨data, hdata⟩ pos other hpos (readable_take_iff.mp hother).1)
    obtain ⟨write, hwrite, -, -, hsame⟩ := hrestored intact hintact data hdata
    rw [hwrites, hnew, nil_append] at hwrite
    apply hmisses write hwrite
    rw [hsame, (decryptBlob_ok hdata.2).1]

/-! ## A damaged blob before an intact one -/

def sampleEntries : List PackedBlob :=
  [{ id := .ofNat 1, type := .data, length := 33, offset := 0,
     packID := .ofNat 9 },
   { id := .ofNat 2, type := .data, length := 33, offset := 33, packID := .ofNat 9 }]

def sampleRestorer : FileRestorer where
  key := sampleKey
  hash data := .ofNat (data.headD 0).toNat
  idx h := sampleEntries.filter (·.toBlobHandle = h)
  idx_handle := by simp
  dst := ascii "/restore"
  writeToFile _ := none
  error _ _ := none

def sampleFile : FileInfo where
  size := 2
  location := ascii "file"
  blobs := .ids [.ofNat 1, .ofNat 2]

def sampleUses : List Use :=
  [⟨sampleFile, sampleEntries[0].toBlob, 0⟩, ⟨sampleFile, sampleEntries[1].toBlob, 1⟩]

def intactBlob (byte : UInt8) : Bytes := sampleKey.encrypt sampleNonce [byte]

def damagedBlob : Bytes := List.replicate 33 0

theorem sampleUses_eq : sampleRestorer.allUses (.ofNat 9) [sampleFile] = .ok sampleUses := by decide

theorem sampleUses_nonOverlapping : NonOverlapping sampleUses := by
  unfold NonOverlapping
  decide

theorem downloadPack_restores_sample :
    let content := intactBlob 1 ++ damagedBlob
    sampleRestorer.DamageLast content sampleUses ∧
      sampleRestorer.Restored content sampleUses
        (sampleRestorer.downloadPack (.ofNat 9) content [sampleFile]
          { inProgress := [], writes := [] }).2.writes := by
  intro content
  have hlast : sampleRestorer.DamageLast content sampleUses := by
    unfold DamageLast
    decide
  exact ⟨hlast, (downloadPack_restores (fun _ _ => rfl) sampleUses_eq
    sampleUses_nonOverlapping content []).1 hlast⟩

theorem downloadPack_not_restores :
    ¬ ∀ (r : FileRestorer) (packID : ID) (files : List FileInfo)
        (uses : List Use) (content : Bytes),
      (∀ location failure, r.error location failure = none) →
      r.allUses packID files = .ok uses → NonOverlapping uses →
      r.Restored content uses (r.downloadPack packID content files
        { inProgress := [], writes := [] }).2.writes := by
  intro hall
  have hrestored := hall sampleRestorer (.ofNat 9) [sampleFile] sampleUses
    (damagedBlob ++ intactBlob 2) (fun _ _ => rfl) sampleUses_eq sampleUses_nonOverlapping
  have hread : sampleRestorer.Readable (damagedBlob ++ intactBlob 2)
      sampleEntries[1].toBlob 33 [2] := ⟨by decide, by decide⟩
  obtain ⟨write, hwrite, -⟩ := hrestored ⟨sampleFile, sampleEntries[1].toBlob, 1⟩
    (by decide) [2] hread
  have hnone : (sampleRestorer.downloadPack (.ofNat 9) (damagedBlob ++ intactBlob 2) [sampleFile]
      { inProgress := [], writes := [] }).2.writes = [] := by decide
  rw [hnone] at hwrite
  simp at hwrite


end FileRestorer

end Rapi.Restorer
