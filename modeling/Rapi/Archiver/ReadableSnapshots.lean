import Rapi.Archiver.NoDangling
import Rapi.Repository.Readers

/-!
# Snapshots stay readable

All that a snapshot refers to is listed before its file is written.  Every process
that opens the repository afterwards loads it, whatever others have saved since.
-/

namespace Rapi.Archiver

open Foundation Repository

theorem snapshot_stays_readable {cfg : Config} {s s' s'' : RepoState}
    {mi mi' : MasterIndex} {atree : Tree} {root : Restic.ID}
    (h : AllReadable cfg.repo s) (hauto : cfg.repo.noAutoIndexUpdate = false)
    (hopens : s.Opens mi) (hwrites : WritesSnapshot cfg (s.reopened mi) atree root s')
    (hsessions : Sessions cfg.repo s' s'') (hopens' : s''.Opens mi') :
    ∀ bh, Refers cfg.treeOf root bh → Loads cfg.repo s'' mi' bh := by
  intro bh hrefers
  obtain ⟨final, results, hsteps, hfinished, hok, hwalk, hflush⟩ := hwrites
  obtain ⟨own, hsound, hidle, hlater, hvalid⟩ :=
    validTree_of_finished hopens.opened hsteps hfinished hok hwalk
  -- the archiver gives blobs the IDs that the calls of a session have
  exact h.loads_of_flushed hopens hauto hsound hlater hidle.held hidle.indexed
    hidle.unbroken (hvalid.has_of_refers hrefers).1 hflush hsessions hopens'

/-- Another blob is saved after the snapshot. -/
theorem snapshot_stays_readable_file :
    ∃ s s' mi, WritesSnapshot sampleConfig sampleStart sampleTarget sampleRoot s ∧
      Session prefixRepo s s' ∧ s'.Opens mi ∧
      Loads prefixRepo s' mi ⟨prefixHash [2, 3], .data⟩ := by
  obtain ⟨s, hwrites, hlater⟩ := exists_writesSnapshot
    (fun s => s.later.any (·.Fits)) (by decide +kernel)
  obtain ⟨s', hs', hfits⟩ := (Option.any_eq_true _ _).mp hlater
  have hsession := RepoState.session_of_later hs'
  obtain ⟨mi, hopens⟩ := (of_decide_eq_true hfits).exists_opens
  exact ⟨s, s', mi, hwrites, hsession, hopens, snapshot_stays_readable
    (allReadable_sampleStart prefixRepo) rfl sampleStart_opens hwrites (.single hsession)
    hopens _ refers_sampleRoot⟩

end Rapi.Archiver
