import Rapi.Repository.Conservation

/-!
# What the actions keep

Each action of the repository keeps `Sound`, with the tokens that the acting
call owns before and after it.
-/

namespace Rapi.Repository

open Foundation Crypto Restic Multiset MasterIndex
open RepoState (held)

variable {c : Setting} {s s' : RepoState} {m m' used used' frame : Multiset Token}

/-! ## The parts of the invariant -/

theorem Counted.congr (h : Counted c s m) (hidx : s'.idx = s.idx) (hheld : s'.held m' = s.held m)
    (hannounced : announcedBy m' = announcedBy m) : Counted c s' m' := by
  constructor
  · rw [hidx, hheld]
    exact h.once
  · rw [hheld, hannounced]
    unfold RepoState.entries
    rw [hidx]
    exact h.announced
  · rw [hannounced]
    exact h.unique

theorem Setting.Written.later {packs packs' : Store ID Bytes} {pb : PackedBlob}
    (h : c.Written packs pb) (hpacks : ∀ id content, packs.load id = some content →
      packs'.load id = some content) : c.Written packs' pb := by
  obtain ⟨hnew, content, blobs, area, hload, hrest⟩ := h
  exact ⟨hnew, content, blobs, area, hpacks _ _ hload, hrest⟩

theorem Filed.mono (h : Filed c s m) (hcontent : ∀ pb ∈ s'.idx.content, pb ∈ s.idx.content)
    (hopen : ∀ pb, s'.idx.InOpen pb → s.idx.InOpen pb)
    (hpacks : ∀ id content, s.packs.load id = some content →
      s'.packs.load id = some content) (hfiles : s'.indexFiles = s.indexFiles)
    (hindex : ∀ idx, .index idx ∈ m' → .index idx ∈ m ∨
      ∀ pb ∈ idx.content, s.idx.InOpen pb) : Filed c s' m' := by
  constructor
  · intro pb hpb
    exact (h.entries pb (hcontent pb hpb)).imp_right (·.later hpacks)
  · intro pb hpb
    exact (h.unfinal pb (hopen pb hpb)).imp_right (·.later hpacks)
  · intro idx hidx pb hpb
    rcases hindex idx hidx with hidx | hall
    · exact (h.indexes idx hidx pb hpb).imp_right (·.later hpacks)
    · exact (h.unfinal pb (hall pb hpb)).imp_right (·.later hpacks)
  · rw [hfiles]
    intro file hfile
    refine (h.files file hfile).imp_right fun hall pb hpb => ?_
    exact (hall pb hpb).imp_right (·.later hpacks)

theorem Carried.subset (h : Carried c s m) (hopen : s'.openPackers = s.openPackers)
    (hpacker : ∀ p, .packer p ∈ m' → .packer p ∈ m)
    (hfinished : ∀ p, .finished p ∈ m' → .finished p ∈ m) : Carried c s' m' := by
  constructor
  · rw [hopen]
    exact h.listed
  · exact fun p hp => h.packer p (hpacker p hp)
  · exact fun p hp => h.finished p (hfinished p hp)

theorem Carried.add_frame (h : Carried c s (used + frame))
    (hused : Carried c s' used') : Carried c s' (used' + frame) := by
  refine ⟨hused.listed, fun p hp => ?_, fun p hp => ?_⟩
  · rcases mem_add.mp hp with hp | hp
    · exact hused.packer p hp
    · exact h.packer p (mem_add.mpr (Or.inr hp))
  · rcases mem_add.mp hp with hp | hp
    · exact hused.finished p hp
    · exact h.finished p (mem_add.mpr (Or.inr hp))

theorem Setting.Covered.later {pb : PackedBlob} (h : c.Covered s pb)
    (hfiles : ∀ file ∈ s.indexFiles, file ∈ s'.indexFiles) : c.Covered s' pb :=
  h.imp_right fun ⟨file, hfile, hpb⟩ => ⟨file, hfiles file hfile, hpb⟩

/-! ## Packers -/

theorem Sound.transfer (h : Sound c s (used + frame)) (hidx : s'.idx = s.idx)
    (hpacks : s'.packs = s.packs) (hfiles : s'.indexFiles = s.indexFiles)
    (hheld : s'.heldIn + heldBy used' = s.heldIn + heldBy used) (hduties : Duties used used')
    (hcarried : Carried c s (used + frame) → Carried c s' used') : Sound c s' (used' + frame) := by
  have hduties := hduties.add_frame frame
  have hheld : s'.held (used' + frame) = s.held (used + frame) := by
    rw [held, held, heldBy_add, heldBy_add, ← add_assoc, ← add_assoc, hheld]
  constructor
  · rw [hidx, hheld]
    exact h.pending
  · rw [hpacks]
    exact h.old
  · rw [hidx, hpacks]
    exact h.stored
  · intro pb hpb
    rw [hidx] at hpb
    refine (h.covered pb hpb).imp (fun hcovered => ?_) fun ⟨idx, hmem, hpb⟩ => ?_
    · exact hcovered.later fun file hfile => by rwa [hfiles]
    · exact ⟨idx, (hduties.index idx).mpr hmem, hpb⟩
  · rw [hduties.saved, hheld, hidx, hpacks]
    exact h.saved
  · intro hnot
    exact (h.counted fun hmem => hnot (hduties.miscounted hmem)).congr hidx hheld hduties.announced
  · intro hnot
    have hold := h.carried fun hmem => hnot (hduties.broken hmem)
    exact hold.add_frame (hcarried hold)
  · intro hnot
    refine (h.filed fun hmem => hnot (hduties.broken hmem)).mono ?_ ?_ ?_
      hfiles fun idx hmem => Or.inl ((hduties.index idx).mp hmem)
    · rw [hidx]
      exact fun _ => id
    · rw [hidx]
      exact fun _ => id
    · rw [hpacks]
      exact fun _ _ => id

theorem Sound.drop (h : Sound c s (used + frame)) (p : Packer) (hheld : heldBy used = p.handles)
    (hannounced : announcedBy used = 0) (hsaved : savedBy used = 0)
    (hindex : ∀ idx, .index idx ∉ used) (hbroken : .broken ∉ used)
    (hmiscounted : .miscounted ∉ used) : Sound c s ({.dropped p} + frame) := by
  refine h.transfer rfl rfl rfl ?_ ?_ ?_
  · rw [hheld, heldBy_singleton]
    rfl
  · refine ⟨?_, ?_, ?_, fun hmem => absurd hmem hbroken, fun hmem => absurd hmem hmiscounted⟩
    · simp [hannounced]
    · simp [hsaved]
    · simp [hindex]
  · exact fun hcarried => ⟨hcarried.listed, by simp, by simp⟩

/-- Packers go back to the list, and the blobs of some of them are in the index
already. -/
theorem Sound.recount (h : Sound c s (used + frame)) (hidx : s'.idx = s.idx)
    (hpacks : s'.packs = s.packs) (hfiles : s'.indexFiles = s.indexFiles)
    (hheld : ∀ bh ∈ s.heldIn + heldBy used, bh ∈ s'.heldIn + heldBy used')
    (hsaved : ∀ bh ∈ savedBy used', bh ∈ savedBy used)
    (hindex : ∀ idx, .index idx ∈ used' ↔ .index idx ∈ used)
    (hbroken : .broken ∈ used → .broken ∈ used') (hmiscounted : .miscounted ∈ used')
    (hcarried : .broken ∉ used' → Carried c s (used + frame) → Carried c s' used') :
    Sound c s' (used' + frame) := by
  have hheld : ∀ bh ∈ s.held (used + frame), bh ∈ s'.held (used' + frame) := by
    intro bh hbh
    rw [held, heldBy_add, ← add_assoc, mem_add] at hbh ⊢
    exact hbh.imp_left (hheld bh)
  have hindex : ∀ idx, .index idx ∈ used' + frame ↔ .index idx ∈ used + frame := by
    intro idx
    rw [mem_add, mem_add, hindex]
  have hbroken : .broken ∉ used' + frame → .broken ∉ used + frame := by
    intro hnot hmem
    rw [mem_add] at hnot hmem
    exact hnot (hmem.imp_left hbroken)
  constructor
  · intro bh hbh
    rw [hidx] at hbh
    exact (h.pending bh hbh).imp_left (hheld bh)
  · rw [hpacks]
    exact h.old
  · rw [hidx, hpacks]
    exact h.stored
  · intro pb hpb
    rw [hidx] at hpb
    refine (h.covered pb hpb).imp (fun hcovered => ?_) fun ⟨idx, hmem, hpb⟩ => ?_
    · exact hcovered.later fun file hfile => by rwa [hfiles]
    · exact ⟨idx, (hindex idx).mpr hmem, hpb⟩
  · intro bh hbh
    rw [savedBy_add, mem_add] at hbh
    have hbefore : bh ∈ savedBy (used + frame) := by
      rw [savedBy_add, mem_add]
      exact hbh.imp_left (hsaved bh)
    rw [hidx, hpacks]
    exact (h.saved bh hbefore).imp_left (hheld bh)
  · intro hnot
    exact absurd (mem_add.mpr (Or.inl hmiscounted)) hnot
  · intro hnot
    have hold := h.carried (hbroken hnot)
    refine hold.add_frame (hcarried (fun hmem => ?_) hold)
    exact hnot (mem_add.mpr (Or.inl hmem))
  · intro hnot
    refine (h.filed (hbroken hnot)).mono ?_ ?_ ?_ hfiles
      fun idx hmem => Or.inl ((hindex idx).mp hmem)
    · rw [hidx]
      exact fun _ => id
    · rw [hidx]
      exact fun _ => id
    · rw [hpacks]
      exact fun _ _ => id

/-! ## The index -/

variable {mi : MasterIndex} {bh : BlobHandle} {p : Packer} {id : ID}

private theorem content_congr {mi' : MasterIndex} (hfirst : mi'.first = mi.first)
    (hrest : mi'.rest = mi.rest) :
    mi'.content = mi.content ∧ (∀ pb, mi'.InFinal pb ↔ mi.InFinal pb) ∧
      ∀ pb, mi'.InOpen pb ↔ mi.InOpen pb := by
  refine ⟨?_, fun pb => ?_, fun pb => ?_⟩
  · rw [MasterIndex.content, hfirst, hrest]
    rfl
  · rw [inFinal_iff, inFinal_iff, hfirst, hrest]
  · rw [MasterIndex.InOpen, MasterIndex.InOpen, hrest]

theorem Later.of_idx (h : s.idx.Keeps mi) : Later s { s with idx := mi } :=
  ⟨fun _ => h.has, h.content, fun _ _ => id, fun _ => id⟩

private theorem Counted.addPending (h : Counted c s m)
    (hcontent : mi.content = s.idx.content) (hhas : s.idx.has bh = false)
    (hpending : mi.pendingBlobs = insert bh s.idx.pendingBlobs)
    (hheld : RepoState.held { s with idx := mi } m' = bh ::ₘ s.held m)
    (hannounced : announcedBy m' = bh ::ₘ announcedBy m) : Counted c { s with idx := mi } m' := by
  rw [← Bool.not_eq_true, has_iff, not_or] at hhas
  have hentries : ∀ other, RepoState.entries { s with idx := mi } other =
      s.entries other := by
    intro other
    unfold RepoState.entries
    rw [hcontent]
  have hnone : c.fresh bh → (s.held m).count bh = 0 ∧ s.entries bh = 0 ∧
      (announcedBy m).count bh = 0 := by
    intro hfresh
    have hheld := h.once bh hfresh
    rw [if_neg hhas.1] at hheld
    have hentries : s.entries bh = 0 := by
      rw [RepoState.entries, countP_eq_zero]
      exact fun pb hpb hsame => hhas.2 ⟨pb, hpb, hsame⟩
    exact ⟨hheld, hentries, by rw [h.announced bh hfresh, hheld, hentries]⟩
  constructor
  · intro other hfresh
    dsimp only
    rw [hheld, hpending]
    by_cases hother : other = bh
    · subst hother
      rw [count_cons_self, (hnone hfresh).1, if_pos (Finset.mem_insert_self _ _)]
    · rw [count_cons_of_ne hother, h.once other hfresh]
      simp [hother]
  · intro other hfresh
    rw [hheld, hannounced, hentries]
    by_cases hother : other = bh
    · subst hother
      obtain ⟨h₁, h₂, h₃⟩ := hnone hfresh
      rw [count_cons_self, count_cons_self, h₁, h₂, h₃]
    · rw [count_cons_of_ne hother, count_cons_of_ne hother, h.announced other hfresh]
  · intro other hfresh
    rw [hannounced]
    by_cases hother : other = bh
    · subst hother
      rw [count_cons_self, (hnone hfresh).2.2]
    · rw [count_cons_of_ne hother]
      exact h.unique other hfresh

theorem Sound.addPending (h : Sound c s frame) (hadd : s.idx.addPending bh = (true, mi)) :
    Sound c { s with idx := mi } ({.blob bh} + {.announced bh} + frame) := by
  obtain ⟨hfirst, hrest, ⟨hnew, -⟩ | ⟨-, hhas, hpending⟩⟩ := addPending_spec hadd
  · cases hnew
  obtain ⟨hcontent, hfinal, hopen⟩ := content_congr hfirst hrest
  have hheld : RepoState.held { s with idx := mi }
      ({.blob bh} + {.announced bh} + frame) = bh ::ₘ s.held frame := by
    simp [held, RepoState.heldIn, RepoState.openPackers]
  constructor
  · intro other hother
    dsimp only at hother
    rw [hpending, Finset.mem_insert] at hother
    rw [hheld, mem_cons, or_assoc]
    exact hother.imp_right (h.pending other)
  · exact h.old
  · dsimp only
    rw [hcontent]
    exact h.stored
  · intro pb hpb
    refine (h.covered pb ((hfinal pb).mp hpb)).imp_right ?_
    rintro ⟨idx, hmem, hpb⟩
    exact ⟨idx, by simp [hmem], hpb⟩
  · intro other hother
    rw [hheld, mem_cons]
    simp only [savedBy_add, savedBy_singleton, Token.savedHandle, zero_add,
      mem_add, mem_singleton] at hother
    rcases hother with rfl | hother
    · exact Or.inl (Or.inl rfl)
    · dsimp only
      rw [hcontent]
      exact (h.saved other hother).imp_left Or.inr
  · intro hnot
    refine (h.counted fun hmem => hnot (by simp [hmem])).addPending hcontent hhas hpending hheld ?_
    simp
  · intro hnot
    refine (h.carried fun hmem => hnot (by simp [hmem])).subset rfl ?_ ?_
    · simp
    · simp
  · intro hnot
    refine (h.filed fun hmem => hnot (by simp [hmem])).mono ?_ ?_ (fun _ _ => id) rfl ?_
    · exact fun pb hpb => hcontent ▸ hpb
    · exact fun pb => (hopen pb).mp
    · exact fun idx hidx => Or.inl (by simpa using hidx)

/-- A blob that is not counted may be carried at any time. -/
theorem Sound.duplicate (h : Sound c s frame) (hfresh : ¬ c.fresh bh) :
    Sound c s ({.blob bh} + {.duplicate bh} + frame) := by
  have hheld : s.held ({.blob bh} + {.duplicate bh} + frame) = bh ::ₘ s.held frame := by
    simp [held]
  have hcount : ∀ other, c.fresh other →
      (s.held ({.blob bh} + {.duplicate bh} + frame)).count other = (s.held frame).count other := by
    intro other hother
    rw [hheld, count_cons_of_ne]
    rintro rfl
    exact hfresh hother
  have hannounced : announcedBy ({.blob bh} + {.duplicate bh} + frame) =
      announcedBy frame := by
    simp
  constructor
  · intro other hother
    rw [hheld]
    exact (h.pending other hother).imp_left mem_cons_of_mem
  · exact h.old
  · exact h.stored
  · intro pb hpb
    refine (h.covered pb hpb).imp_right ?_
    rintro ⟨idx, hmem, hpb⟩
    exact ⟨idx, by simp [hmem], hpb⟩
  · intro other hother
    rw [hheld, mem_cons]
    simp only [savedBy_add, savedBy_singleton, Token.savedHandle, zero_add,
      mem_add, mem_singleton] at hother
    rcases hother with rfl | hother
    · exact Or.inl (Or.inl rfl)
    · exact (h.saved other hother).imp_left Or.inr
  · intro hnot
    have hcounted := h.counted fun hmem => hnot (by simp [hmem])
    constructor
    · intro other hother
      rw [hcount other hother]
      exact hcounted.once other hother
    · intro other hother
      rw [hcount other hother, hannounced]
      exact hcounted.announced other hother
    · rw [hannounced]
      exact hcounted.unique
  · intro hnot
    refine (h.carried fun hmem => hnot (by simp [hmem])).subset rfl ?_ ?_
    · simp
    · simp
  · intro hnot
    refine (h.filed fun hmem => hnot (by simp [hmem])).mono (fun _ => id)
      (fun _ => id) (fun _ _ => id) rfl ?_
    exact fun idx hidx => Or.inl (by simpa using hidx)

private theorem Counted.storePack (h : Counted c s ({.finished p} + frame)) (hcontent : mi.content =
      (p.packer.blobs.map (Index.packed id) : Multiset PackedBlob) + s.idx.content)
    (hpending : ∀ bh, bh ∈ mi.pendingBlobs ↔ bh ∈ s.idx.pendingBlobs ∧ bh ∉ p.handles) :
    Counted c { s with idx := mi } frame := by
  have hheld : s.held ({.finished p} + frame) = p.handles + s.held frame := by
    simp [held, add_left_comm]
  have hentries : ∀ bh, RepoState.entries { s with idx := mi } bh =
      p.handles.count bh + s.entries bh := by
    intro bh
    unfold RepoState.entries
    dsimp only
    rw [hcontent, countP_add, Packer.handles, count, ← map_coe, ← map_coe, countP_map, countP_map]
    simp only [Index.packed, eq_comm]
  have hannounced : announcedBy ({.finished p} + frame) = announcedBy frame := by simp
  have hcounts : ∀ bh, c.fresh bh → p.handles.count bh + (s.held frame).count bh =
        if bh ∈ s.idx.pendingBlobs then 1 else 0 := by
    intro bh hfresh
    rw [← count_add, ← hheld]
    exact h.once bh hfresh
  constructor
  · intro bh hfresh
    have hcount := hcounts bh hfresh
    change (s.held frame).count bh = _
    by_cases hin : bh ∈ p.handles
    · have hpos := count_pos.mpr hin
      rw [if_neg (by simp [hpending, hin])]
      split at hcount <;> omega
    · rw [count_eq_zero.mpr hin, zero_add] at hcount
      rw [hcount]
      simp only [hpending, hin, not_false_eq_true, and_true]
  · intro bh hfresh
    have hold := h.announced bh hfresh
    rw [hannounced, hheld, count_add] at hold
    rw [hentries, hold]
    change _ = (s.held frame).count bh + _
    omega
  · intro bh hfresh
    have hold := h.unique bh hfresh
    rwa [hannounced] at hold

private theorem Setting.Finished.written {blob : Blob} (h : c.Finished p)
    (hnew : id ∉ c.start.packs.names) (hload : s.packs.load id = some p.tmpfile.content)
    (hblob : blob ∈ p.packer.blobs) : c.Written s.packs (Index.packed id blob) := by
  obtain ⟨hintact, area, hpack, hrange⟩ := h
  refine ⟨hnew, _, _, area, hload, hintact.content ▸ hpack, hblob, hrange blob hblob, ?_⟩
  rw [hintact.content]
  exact (hintact.blobs blob hblob).2

theorem Sound.storePack (h : Sound c s ({.finished p} + frame)) {newIdx : Index}
    (hnew : newIdx.content = 0) (hid : id ∉ c.start.packs.names)
    (hload : s.packs.load id = some p.tmpfile.content)
    (hstore : s.idx.storePack id p.packer.blobs newIdx = some mi) :
    Sound c { s with idx := mi } frame := by
  obtain ⟨hcontent, hpending, hfinal⟩ := storePack_spec hnew hstore
  have hopen : ∀ pb, mi.InOpen pb → pb ∈ p.packer.blobs.map (Index.packed id) ∨ s.idx.InOpen pb :=
    fun _ => inOpen_storePack hnew hstore
  have hheld : s.held ({.finished p} + frame) = p.handles + s.held frame := by
    simp [held, add_left_comm]
  have hpending : ∀ bh, bh ∈ mi.pendingBlobs ↔ bh ∈ s.idx.pendingBlobs ∧ bh ∉ p.handles := by
    intro bh
    rw [hpending, Finset.mem_sdiff]
    simp [Packer.handles]
  have hmem : ∀ pb, pb ∈ mi.content ↔
      pb ∈ p.packer.blobs.map (Index.packed id) ∨ pb ∈ s.idx.content := by
    intro pb
    rw [hcontent, mem_add, mem_coe]
  constructor
  · intro bh hbh
    obtain ⟨hbh, hnot⟩ := (hpending bh).mp hbh
    refine (h.pending bh hbh).imp_left fun hin => ?_
    rw [hheld, mem_add] at hin
    exact hin.resolve_left hnot
  · exact h.old
  · intro pb hpb
    rcases (hmem pb).mp hpb with hpb | hpb
    · obtain ⟨blob, -, rfl⟩ := List.mem_map.mp hpb
      exact Or.inr ⟨_, hload⟩
    · exact h.stored pb hpb
  · intro pb hpb
    refine (h.covered pb ((hfinal pb).mp hpb)).imp_right ?_
    rintro ⟨idx, hidx, hpb⟩
    exact ⟨idx, by simpa using hidx, hpb⟩
  · intro bh hbh
    have hbefore : bh ∈ savedBy ({.finished p} + frame) := by simpa using hbh
    rcases h.saved bh hbefore with hin | ⟨pb, hpb, hsame⟩
    · rw [hheld, mem_add] at hin
      refine hin.symm.imp_right fun hin => ?_
      rw [Packer.handles, mem_coe, List.mem_map] at hin
      obtain ⟨blob, hblob, rfl⟩ := hin
      exact ⟨_, (hmem _).mpr (Or.inl (List.mem_map_of_mem hblob)), rfl, hid, _, hload⟩
    · exact Or.inr ⟨pb, (hmem pb).mpr (Or.inr hpb), hsame⟩
  · intro hnot
    exact (h.counted (by simpa using hnot)).storePack hcontent hpending
  · intro hnot
    refine (h.carried (by simpa using hnot)).subset rfl ?_ ?_
    · exact fun q hq => by simp [hq]
    · exact fun q hq => by simp [hq]
  · intro hnot
    have hfinished : c.Finished p := (h.carried (by simpa using hnot)).finished p (by simp)
    have hfiled := h.filed (by simpa using hnot)
    have hwritten : ∀ pb ∈ p.packer.blobs.map (Index.packed id), c.Written s.packs pb := by
      intro pb hpb
      obtain ⟨blob, hblob, rfl⟩ := List.mem_map.mp hpb
      exact hfinished.written hid hload hblob
    refine ⟨fun pb hpb => ?_, fun pb hpb => ?_, fun idx hidx => ?_, hfiled.files⟩
    · rcases (hmem pb).mp hpb with hpb | hpb
      · exact Or.inr (hwritten pb hpb)
      · exact hfiled.entries pb hpb
    · rcases hopen pb hpb with hpb | hpb
      · exact Or.inr (hwritten pb hpb)
      · exact hfiled.unfinal pb hpb
    · exact hfiled.indexes idx (by simp [hidx])

theorem Later.storePack {blobs : List Blob} {newIdx : Index} (hnew : newIdx.content = 0)
    (hstore : s.idx.storePack id blobs newIdx = some mi) : Later s { s with idx := mi } :=
  Later.of_idx (keeps_storePack hnew hstore)

private theorem Counted.reindex (h : Counted c s m)
    (hpending : mi.pendingBlobs = s.idx.pendingBlobs) (hle : mi.content ≤ s.idx.content)
    (hmem : ∀ pb, pb ∈ mi.content ↔ pb ∈ s.idx.content)
    (hheld : RepoState.held { s with idx := mi } m' = s.held m)
    (hannounced : announcedBy m' = announcedBy m) : Counted c { s with idx := mi } m' := by
  have hentries : ∀ bh, c.fresh bh → RepoState.entries { s with idx := mi } bh = s.entries bh := by
    intro bh hfresh
    -- there is at most one entry, so that no duplicate is left out
    have hunique := h.unique bh hfresh
    rw [h.announced bh hfresh] at hunique
    have hcount : RepoState.entries { s with idx := mi } bh ≤ s.entries bh := countP_le_of_le _ hle
    by_cases hzero : s.entries bh = 0
    · omega
    · have hpos : 0 < s.entries bh := Nat.pos_of_ne_zero hzero
      rw [RepoState.entries, countP_pos] at hpos
      obtain ⟨pb, hpb, hsame⟩ := hpos
      have hpos' : 0 < RepoState.entries { s with idx := mi } bh := by
        rw [RepoState.entries, countP_pos]
        exact ⟨pb, (hmem pb).mpr hpb, hsame⟩
      omega
  constructor
  · dsimp only
    rw [hpending, hheld]
    exact h.once
  · intro bh hfresh
    rw [hheld, hannounced, hentries bh hfresh]
    exact h.announced bh hfresh
  · rw [hannounced]
    exact h.unique

/-- The index says the same, apart from exact duplicates, and what is final in
it is saved or about to be. -/
theorem Sound.reindex (h : Sound c s frame) {chosen : List Index}
    (hpending : mi.pendingBlobs = s.idx.pendingBlobs) (hle : mi.content ≤ s.idx.content)
    (hmem : ∀ pb, pb ∈ mi.content ↔ pb ∈ s.idx.content)
    (hfinal : ∀ pb, mi.InFinal pb → s.idx.InFinal pb ∨ ∃ idx ∈ chosen, pb ∈ idx.content)
    (hopen : ∀ pb, mi.InOpen pb → s.idx.InOpen pb)
    (hchosen : ∀ idx ∈ chosen, ∀ pb ∈ idx.content, s.idx.InOpen pb) :
    Sound c { s with idx := mi } ((chosen.map Token.index : List Token) + frame) := by
  have hnone : ∀ f : Token → Multiset BlobHandle, (∀ idx, f (.index idx) = 0) →
      (chosen.map Token.index : Multiset Token).bind f = 0 := by
    intro f hf
    rw [← map_coe, bind_map]
    simp [hf]
  have hheld : RepoState.held { s with idx := mi }
      ((chosen.map Token.index : List Token) + frame) = s.held frame := by
    rw [held, heldBy_add, heldBy, hnone _ fun _ => rfl, zero_add]
    rfl
  have hannounced : announcedBy ((chosen.map Token.index : List Token) + frame) =
      announcedBy frame := by
    rw [announcedBy_add, announcedBy, hnone _ fun _ => rfl, zero_add]
  have hsaved : savedBy ((chosen.map Token.index : List Token) + frame) =
      savedBy frame := by
    rw [savedBy_add, savedBy, hnone _ fun _ => rfl, zero_add]
  constructor
  · dsimp only
    rw [hpending, hheld]
    exact h.pending
  · exact h.old
  · intro pb hpb
    exact h.stored pb ((hmem pb).mp hpb)
  · intro pb hpb
    rcases hfinal pb hpb with hpb | ⟨idx, hidx, hpb⟩
    · refine (h.covered pb hpb).imp_right ?_
      rintro ⟨idx, hidx, hpb⟩
      exact ⟨idx, by simp [hidx], hpb⟩
    · exact Or.inr ⟨idx, by simp [hidx], hpb⟩
  · intro bh hbh
    rw [hsaved] at hbh
    rw [hheld]
    refine (h.saved bh hbh).imp_right ?_
    rintro ⟨pb, hpb, hsame⟩
    exact ⟨pb, (hmem pb).mpr hpb, hsame⟩
  · intro hnot
    exact (h.counted fun hin => hnot (by simp [hin])).reindex hpending hle hmem hheld hannounced
  · intro hnot
    refine (h.carried fun hin => hnot (by simp [hin])).subset rfl ?_ ?_
    · exact fun p hp => by simpa using hp
    · exact fun p hp => by simpa using hp
  · intro hnot
    refine (h.filed fun hin => hnot (by simp [hin])).mono
      (fun pb => (hmem pb).mp) hopen (fun _ _ => id) rfl ?_
    intro idx hidx
    simp only [mem_add, mem_coe, List.mem_map, Token.index.injEq, exists_eq_right] at hidx
    exact hidx.symm.imp_right (hchosen idx)

/-! ## Files -/

theorem Sound.savePack (h : Sound c s m) {content : Bytes} (hfresh : id ∉ s.packs.names) :
    Sound c { s with packs := s.packs.save id content } m := by
  have hload : ∀ other stored, s.packs.load other = some stored →
      (s.packs.save id content).load other = some stored :=
    fun _ _ => Store.load_save_of_load hfresh
  refine ⟨h.pending, ?_, ?_, h.covered, ?_, ?_, ?_, ?_⟩
  · exact fun other hother => List.mem_cons_of_mem _ (h.old other hother)
  · intro pb hpb
    exact (h.stored pb hpb).imp_right fun ⟨stored, hstored⟩ => ⟨stored, hload _ _ hstored⟩
  · intro bh hbh
    refine (h.saved bh hbh).imp_right ?_
    rintro ⟨pb, hpb, hsame, hnew, stored, hstored⟩
    exact ⟨pb, hpb, hsame, hnew, stored, hload _ _ hstored⟩
  · exact fun hnot => (h.counted hnot).congr rfl rfl rfl
  · exact fun hnot => (h.carried hnot).subset rfl (fun _ hp => hp) fun _ hp => hp
  · exact fun hnot => (h.filed hnot).mono (fun _ hpb => hpb)
      (fun _ hpb => hpb) hload rfl fun _ => Or.inl

theorem Sound.saveIndexFile {idx : Index} (h : Sound c s (.index idx ::ₘ m))
    {file : JsonIndex} (hencode : idx.encode = some file) (id : ID) :
    Sound c { s with indexFiles := s.indexFiles.save id file } m := by
  have hheld : s.held (.index idx ::ₘ m) = s.held m := by simp [held]
  have hannounced : announcedBy (.index idx ::ₘ m) = announcedBy m := by simp
  constructor
  · intro bh hbh
    have hin := h.pending bh hbh
    rwa [hheld] at hin
  · exact h.old
  · exact h.stored
  · intro pb hpb
    rcases h.covered pb hpb with hcovered | ⟨other, hother, hpb⟩
    · exact Or.inl (hcovered.later fun _ => List.mem_cons_of_mem _)
    · rw [mem_cons] at hother
      rcases hother with hother | hother
      · cases hother
        refine Or.inl (Or.inr ⟨(id, file), by simp [Store.save], ?_⟩)
        rwa [Index.listed_encode hencode]
      · exact Or.inr ⟨other, hother, hpb⟩
  · intro bh hbh
    have hin := h.saved bh (by simpa using hbh)
    rwa [hheld] at hin
  · intro hnot
    exact (h.counted (by simpa using hnot)).congr rfl hheld.symm hannounced.symm
  · intro hnot
    refine (h.carried (by simpa using hnot)).subset rfl ?_ ?_
    · exact fun p hp => by simp [hp]
    · exact fun p hp => by simp [hp]
  · intro hnot
    have hfiled := h.filed (by simpa using hnot)
    refine ⟨hfiled.entries, hfiled.unfinal, ?_, ?_⟩
    · exact fun other hother => hfiled.indexes other (by simp [hother])
    · intro other hother
      rcases List.mem_cons.mp hother with rfl | hother
      · right
        dsimp only
        rw [Index.listed_encode hencode]
        exact hfiled.indexes idx (by simp)
      · exact hfiled.files other hother

end Rapi.Repository
