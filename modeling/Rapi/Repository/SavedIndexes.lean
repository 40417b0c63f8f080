import Rapi.Repository.IndexFiles

/-!
# What a flush that succeeds means for the index

Calls are made one after the other, and each of them may fail.  When `SaveIndex`
succeeds, nothing is left in an index that is not final, and what is final was
written, unless an earlier call could not write an index file: the index is
final from then on, and no later call looks at it again.
-/

namespace Rapi.Repository

open Foundation Crypto Restic

/-- The calls that were made, each with the error it returned. -/
inductive History (r : Repo) (start : RepoState) : List (Call × Option SaveError) → RepoState → Prop
  | nil : History r start [] start
  | snoc {done : List (Call × Option SaveError)} {call : Call}
      {err : Option SaveError} {s s' : RepoState} (hdone : History r start done s)
      (hcall : Runs system (r.call call) s err s') : History r start (done ++ [(call, err)]) s'

def RepoState.Listed (s : RepoState) (pb : PackedBlob) : Prop :=
  ∃ file ∈ s.indexFiles, pb ∈ file.2.listed

section Histories

variable {r : Repo} {start s s' : RepoState} {done : List (Call × Option SaveError)} {call : Call}

theorem History.snoc_inv {last : Call × Option SaveError}
    (h : History r start (done ++ [last]) s') :
    ∃ s, History r start done s ∧ Runs system (r.call last.1) s last.2 s' := by
  generalize hall : done ++ [last] = all at h
  cases h with
  | nil => simp at hall
  | snoc hdone hcall =>
    obtain ⟨rfl, hlast⟩ := List.append_inj' hall rfl
    cases hlast
    exact ⟨_, hdone, hcall⟩

variable {err : Option SaveError}

private theorem call_sound {m : Multiset Token} (h : Sound (uncounted r start) s m)
    (hindex : ∀ idx, .index idx ∉ m) (hcall : Runs system (r.call call) s err s')
    (herr : err ≠ some .saveIndex) :
    ∃ m', Sound (uncounted r start) s' m' ∧ (∀ idx, .index idx ∉ m') ∧ Later s s' := by
  obtain ⟨m', hsound, hlater, hpost⟩ := Logic.wp_runs
    (wp_call call s rfl (fun _ => not_false) fun _ _ _ _ _ => trivial) (by rwa [zero_add]) hcall
  refine ⟨m' + m, hsound, fun idx hidx => ?_, hlater⟩
  rcases Multiset.mem_add.mp hidx with hidx | hidx
  · exact hpost.indexed herr idx hidx
  · exact hindex idx hidx

private theorem history_sound (h : History r start done s)
    (hopened : start.Opened) (hdone : ∀ entry ∈ done, entry.2 ≠ some .saveIndex) :
    ∃ m, Sound (uncounted r start) s m ∧ (∀ idx, .index idx ∉ m) ∧ Later start s := by
  induction h with
  | nil => exact ⟨0, Sound.opened (c := uncounted r start) hopened nofun, by simp, Later.refl _⟩
  | @snoc done call err s s' _ hcall ih =>
    obtain ⟨m, hsound, hindex, hlater⟩ := ih fun entry hentry => hdone entry (by simp [hentry])
    obtain ⟨m', hsound', hindex', hlater'⟩ := call_sound hsound hindex hcall
      (hdone (call, err) (by simp))
    exact ⟨m', hsound', hindex', hlater.trans hlater'⟩

/-! ## Nothing is left in an index that is not final -/

private theorem saveIndexes_closed {indexes : List Index}
    (h : Runs system (saveIndexes indexes) s err s')
    (hclosed : ∀ pb, ¬ s.idx.InOpen pb) : ∀ pb, ¬ s'.idx.InOpen pb := by
  induction indexes generalizing s with
  | nil =>
    obtain ⟨failure, mid, hmerge, hrest⟩ := h.perform_inv
    obtain ⟨mi, hok, -, -, -, -, hopen⟩ := s.idx.mergeFinalIndexes_spec
    simp only [system, exec, hok] at hmerge
    obtain ⟨rfl, rfl⟩ := hmerge
    cases hrest
    exact fun pb hpb => hclosed pb ((hopen pb).mp hpb)
  | cons idx rest ih =>
    unfold saveIndexes at h
    cases hencode : idx.encode with
    | none =>
      rw [hencode] at h
      cases h with
      | act hpanic => exact hpanic.elim
    | some file =>
      rw [hencode] at h
      obtain ⟨failed, mid, hsave, hrest⟩ := h.perform_inv
      have hmid : mid.idx = s.idx := by rcases hsave with ⟨id, -, rfl⟩ | ⟨-, rfl⟩ <;> rfl
      cases failed with
      | true =>
        cases hrest
        rwa [hmid]
      | false => exact ih hrest (by rwa [hmid])

theorem saveIndex_closed (h : Runs system saveIndex s err s') (pb : PackedBlob) :
    ¬ s'.idx.InOpen pb := by
  obtain ⟨chosen, mid, ⟨mi, hchosen, rfl⟩, hrest⟩ := h.perform_inv
  exact saveIndexes_closed hrest (MasterIndex.not_inOpen_finalizeNotFinalIndexes hchosen) pb

theorem flush_closed (hauto : r.noAutoIndexUpdate = false) (h : Runs system r.flush s none s')
    (pb : PackedBlob) : ¬ s'.idx.InOpen pb := by
  obtain ⟨err, mid, -, hrest⟩ := h.bind_inv
  cases err with
  | some err => cases hrest
  | none =>
    dsimp only at hrest
    rw [hauto] at hrest
    exact saveIndex_closed hrest pb

theorem listed_of_success (hopened : start.Opened)
    (hlisted : ∀ pb ∈ start.idx.content, start.Listed pb)
    (hcall : call = .saveIndex ∨ call = .flush ∧ r.noAutoIndexUpdate = false)
    (hcalls : History r start (done ++ [(call, none)]) s)
    (hdone : ∀ entry ∈ done, entry.2 ≠ some .saveIndex) :
    ∀ pb ∈ s.idx.content, s.Listed pb := by
  obtain ⟨before, hbefore, hlast⟩ := hcalls.snoc_inv
  obtain ⟨m, hsound, hindex, hlater⟩ := history_sound hbefore hopened hdone
  obtain ⟨m', hsound', hindex', hlater'⟩ := call_sound hsound hindex hlast nofun
  have hclosed : ∀ pb, ¬ s.idx.InOpen pb := by
    rcases hcall with rfl | ⟨rfl, hauto⟩
    · exact saveIndex_closed hlast
    · exact flush_closed hauto hlast
  intro pb hpb
  have hfinal := (MasterIndex.mem_content_iff.mp hpb).resolve_right (hclosed pb)
  rcases hsound'.covered pb hfinal with (hpb | hpb) | ⟨idx, hidx, -⟩
  · obtain ⟨file, hfile, hpb⟩ := hlisted pb hpb
    exact ⟨file, (hlater.trans hlater').files file hfile, hpb⟩
  · exact hpb
  · exact absurd hidx (hindex' idx)

end Histories

theorem sampleStart_saved : Runs system (autoRepo.call sampleSave) sampleStart none sampleSaved :=
  runs_of_play (playback sampleNonce fun _ _ => none) rfl

theorem listed_of_success_flush :
    ∃ s, History autoRepo sampleStart
        ([(sampleSave, none)] ++ [(.flush, none)]) s ∧
      ∀ pb ∈ s.idx.content, s.Listed pb := by
  obtain ⟨err, s, hflush, rfl⟩ := exists_runs (playback sampleNonce fun _ _ => none)
    autoRepo.flush sampleSaved (·.1 = none) (by decide +kernel)
  have hcalls : History autoRepo sampleStart ([(sampleSave, none)] ++ [(.flush, none)]) s :=
    .snoc (.snoc .nil sampleStart_saved) hflush
  refine ⟨s, hcalls, listed_of_success (RepoState.opened_new _ _) ?_ (Or.inr ⟨rfl, rfl⟩) hcalls ?_⟩
  · exact fun pb hpb => absurd hpb (Multiset.notMem_zero pb)
  · simp

def rejectsIndex : Op → RepoState → Option Nat
  | .saveIndexFile _, _ => some 0
  | _, _ => none

theorem not_listed_of_success :
    ¬ ∀ (r : Repo) (start s : RepoState) (call : Call)
      (done : List (Call × Option SaveError)), start.Opened →
      (∀ pb ∈ start.idx.content, start.Listed pb) →
      (call = .saveIndex ∨ call = .flush ∧ r.noAutoIndexUpdate = false) →
      History r start (done ++ [(call, none)]) s →
      ∀ pb ∈ s.idx.content, s.Listed pb := by
  intro hall
  -- the index is final, and its file was not written
  obtain ⟨err, s, hflush, rfl, hsave⟩ := exists_runs (playback sampleNonce rejectsIndex)
    autoRepo.flush sampleSaved (fun found => found.1 = some .saveIndex ∧
      ((saveIndex.play (playback sampleNonce rejectsIndex) found.2).any fun saved =>
        saved.1 = none ∧ saved.2.indexFiles.length = 0 ∧
          saved.2.idx.lookup samplePacked.toBlobHandle = [samplePacked])) (by decide +kernel)
  obtain ⟨err, s', hsave, rfl, hfiles, hlookup⟩ := exists_runs _ _ _ _ hsave
  have hcalls : History autoRepo sampleStart
      (([(sampleSave, none)] ++ [(.flush, some .saveIndex)]) ++ [(.saveIndex, none)]) s' :=
    .snoc (.snoc (.snoc .nil sampleStart_saved) hflush) hsave
  obtain ⟨file, hfile, -⟩ := hall _ _ _ _ _ (RepoState.opened_new _ _)
    (fun pb hpb => absurd hpb (Multiset.notMem_zero pb)) (Or.inl rfl) hcalls samplePacked
    (MasterIndex.mem_lookup.mp (hlookup ▸ List.mem_singleton_self _)).1
  rw [List.length_eq_zero_iff.mp hfiles] at hfile
  cases hfile

end Rapi.Repository
