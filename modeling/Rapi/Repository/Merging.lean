import Rapi.Foundation.Transition
import Rapi.Repository.MasterIndex

/-!
# Merging final indexes

`MergeFinalIndexes` puts all final indexes into the first one and leaves the
others alone.  Whatever was done to the master index before, no answer depends
on whether it is called.  The indexes that are inserted are objects of their
own, so that each of them is changed through the master index only.
-/

namespace Rapi.Repository

open Foundation Restic List

namespace MasterIndex

def insert (mi : MasterIndex) (idx : Index) : MasterIndex :=
  { mi with rest := mi.rest ++ [idx] }

inductive Edit
  | insert (idx : Index)
  | storePack (id : ID) (blobs : List Blob) (seed : BlobType → ID → Nat) (now : Nat)
  | finalizeNotFinalIndexes
  | finalizeFullIndexes (now : Nat)
  | mergeFinalIndexes

/-- The code panics or returns an error where there is no next state. -/
def step (mi : MasterIndex) : Edit → Option MasterIndex
  | .insert idx => some (mi.insert idx)
  | .storePack id blobs seed now => mi.storePack id blobs (.new seed now)
  | .finalizeNotFinalIndexes => some mi.finalizeNotFinalIndexes.2
  | .finalizeFullIndexes now => some (mi.finalizeFullIndexes now).2
  | .mergeFinalIndexes => mi.mergeFinalIndexes.toOption

/-! ## What becomes of the first index -/

theorem merge_fields {idx idx2 idx' : Index} (h : idx.merge idx2 = .ok idx') :
    idx'.ids = idx.ids ++ idx2.ids ∧
      idx'.supersedes = idx.supersedes ++ idx2.supersedes := by
  unfold Index.merge at h
  split at h
  · cases h
    exact ⟨rfl, rfl⟩
  · cases h

variable {rest : List Index}

theorem mergeRest_fields {first first' : Index} {rest' : List Index}
    (h : mergeRest first rest = .ok (first', rest')) : rest' = rest.filter (fun idx => !idx.final) ∧
      first'.ids = first.ids ++ (rest.filter (·.final)).flatMap (·.ids) ∧
      first'.supersedes = first.supersedes ++ (rest.filter (·.final)).flatMap (·.supersedes) ∧
      (first.content.Nodup → first'.content.Nodup) := by
  induction rest generalizing first rest' with
  | nil =>
    cases h
    simp
  | cons idx rest ih =>
    rw [mergeRest] at h
    by_cases hfinal : idx.final
    · obtain ⟨merged, hmerge, -, hcontent⟩ := Index.merge_spec first hfinal
      obtain ⟨hids, hsupersedes⟩ := merge_fields hmerge
      rw [if_pos hfinal, hmerge] at h
      obtain ⟨hrest', hids', hsupersedes', hnodup⟩ := ih h
      refine ⟨?_, ?_, ?_, fun hfirst => hnodup ?_⟩
      · rw [hrest', filter_cons_of_neg (by simp [hfinal])]
      · rw [hids', hids, filter_cons_of_pos hfinal, flatMap_cons, append_assoc]
      · rw [hsupersedes', hsupersedes, filter_cons_of_pos hfinal, flatMap_cons, append_assoc]
      · rw [hcontent, Multiset.nodup_union]
        exact ⟨hfirst, Multiset.nodup_dedup _⟩
    · rw [if_neg hfinal] at h
      split at h
      · cases h
      · rename_i first₁ rest₁ hrest
        cases h
        obtain ⟨hrest', hids', hsupersedes', hnodup⟩ := ih hrest
        refine ⟨?_, ?_, ?_, hnodup⟩
        · rw [hrest', filter_cons_of_pos (by simp [hfinal])]
        · rw [hids', filter_cons_of_neg hfinal]
        · rw [hsupersedes', filter_cons_of_neg hfinal]

private theorem mergeRest_of_open (first : Index) (h : ∀ idx ∈ rest, idx.final = false) :
    mergeRest first rest = .ok (first, rest) := by
  induction rest with
  | nil => rfl
  | cons idx rest ih =>
    rw [mergeRest, if_neg (by simp [h idx]),
      ih fun other hother => h other (mem_cons_of_mem _ hother)]

private theorem mergeFinalIndexes_eq {mi : MasterIndex} {first : Index}
    (h : mergeRest mi.first mi.rest = .ok (first, rest)) (hfinal : first.final) :
    mi.mergeFinalIndexes = .ok ⟨first, hfinal, rest, mi.pendingBlobs⟩ := by
  unfold mergeFinalIndexes
  split
  · rename_i err herr
    rw [h] at herr
    cases herr
  · rename_i first' rest' hok
    rw [h] at hok
    cases hok
    rfl

theorem mergeFinalIndexes_fields {mi mi' : MasterIndex} (h : mi.mergeFinalIndexes = .ok mi') :
    mi'.rest = mi.rest.filter (fun idx => !idx.final) ∧
      mi'.first.ids = (mi.idx.filter (·.final)).flatMap (·.ids) ∧
      mi'.first.supersedes = (mi.idx.filter (·.final)).flatMap (·.supersedes) ∧
      (mi.first.content.Nodup → mi'.first.content.Nodup) := by
  unfold mergeFinalIndexes at h
  split at h
  · cases h
  · rename_i first rest hrest
    cases h
    obtain ⟨hrest', hids, hsupersedes, hnodup⟩ := mergeRest_fields hrest
    refine ⟨hrest', ?_, ?_, hnodup⟩
    · rw [hids, idx, filter_cons_of_pos mi.first_final, flatMap_cons]
    · rw [hsupersedes, idx, filter_cons_of_pos mi.first_final, flatMap_cons]

/-! ## Every history -/

section History

variable {seed : BlobType → ID → Nat} {now : Nat} {mi : MasterIndex}

theorem mergeFinalIndexes_of_step {mi' : MasterIndex}
    (h : mi.step .mergeFinalIndexes = some mi') : mi.mergeFinalIndexes = .ok mi' := by
  cases hmerge : mi.mergeFinalIndexes <;> simp_all [step, Except.toOption]

private theorem step_nodup {mi' : MasterIndex} {edit : Edit} (hnodup : mi.first.content.Nodup)
    (h : mi.step edit = some mi') : mi'.first.content.Nodup := by
  cases edit with
  | insert idx | finalizeNotFinalIndexes | finalizeFullIndexes now =>
    cases h
    exact hnodup
  | storePack id blobs seed now =>
    obtain ⟨rest, -, rfl⟩ := Option.map_eq_some_iff.mp h
    exact hnodup
  | mergeFinalIndexes => exact (mergeFinalIndexes_fields (mergeFinalIndexes_of_step h)).2.2.2 hnodup

theorem nodup_of_reaches (h : Reaches step Anything (new seed now) mi) :
    mi.first.content.Nodup := by
  have hstart : (new seed now).first.content.Nodup := Multiset.nodup_zero
  induction h with
  | refl => exact hstart
  | next _ _ hstep ih => exact step_nodup ih hstep

theorem merging_changes_no_answer
    (h : Reaches step Anything (new seed now) mi) :
    ∃ mi', mi.mergeFinalIndexes = .ok mi' ∧
      mi'.idx.filter (·.final) = [mi'.first] ∧
      mi'.rest = mi.idx.filter (fun idx => !idx.final) ∧
      (∀ bh pb, pb ∈ mi'.lookup bh ↔ pb ∈ mi.lookup bh) ∧
      (∀ bh, mi'.has bh = mi.has bh) ∧
      mi'.first.each.Nodup ∧
      (∀ idx ∈ mi'.idx, ∀ t, ∀ e ∈ (idx.byType t).entries,
        e.packIndex < idx.packs.length) ∧
      mi'.first.ids = (mi.idx.filter (·.final)).flatMap (·.ids) ∧
      mi'.first.supersedes = (mi.idx.filter (·.final)).flatMap (·.supersedes) ∧
      mi'.mergeFinalIndexes = .ok mi' := by
  obtain ⟨mi', hmerge, hpending, -, hmem, -⟩ := mi.mergeFinalIndexes_spec
  obtain ⟨hrest, hids, hsupersedes, hnodup⟩ := mergeFinalIndexes_fields hmerge
  have hopen : ∀ idx ∈ mi'.rest, idx.final = false := by
    intro idx hidx
    rw [hrest] at hidx
    simpa using (mem_filter.mp hidx).2
  refine ⟨mi', hmerge, ?_, ?_, ?_, ?_, ?_, ?_, hids, hsupersedes, ?_⟩
  · rw [idx, filter_cons_of_pos mi'.first_final,
      filter_eq_nil_iff.mpr fun idx hidx => by simp [hopen idx hidx]]
  · rw [hrest, idx, filter_cons_of_neg (by simp [mi.first_final])]
  · intro bh pb
    rw [mem_lookup, mem_lookup, hmem]
  · intro bh
    rw [Bool.eq_iff_iff, has_iff, has_iff, hpending]
    simp only [hmem]
  · rw [← Multiset.coe_nodup, Index.coe_each]
    exact hnodup (nodup_of_reaches h)
  · exact fun idx _ => idx.inRange
  · exact mergeFinalIndexes_eq (mergeRest_of_open _ hopen) mi'.first_final

end History

def sampleBlob : Blob := { id := .ofNat 1, type := .data, length := 40, offset := 0 }

def sampleEdits : List Edit :=
  [.storePack (.ofNat 2) [sampleBlob] (fun _ _ => 0) 0, .finalizeNotFinalIndexes,
    .storePack (.ofNat 2) [sampleBlob] (fun _ _ => 0) 0, .finalizeNotFinalIndexes]

theorem merging_changes_no_answer_twice :
    ∃ mi mi', run step (new (fun _ _ => 0) 0) sampleEdits = some mi ∧
      mi.mergeFinalIndexes = .ok mi' ∧ mi'.first.each.Nodup ∧
      ∀ bh pb, pb ∈ mi'.lookup bh ↔ pb ∈ mi.lookup bh := by
  obtain ⟨mi, hrun⟩ : ∃ mi, run step (new (fun _ _ => 0) 0) sampleEdits =
      some mi := ⟨_, rfl⟩
  have hreaches : Reaches step Anything (new (fun _ _ => 0) 0) mi :=
    reaches_of_run step .refl (fun _ _ _ => trivial) hrun
  obtain ⟨mi', hmerge, -, -, hlookup, -, hnodup, -⟩ := merging_changes_no_answer hreaches
  exact ⟨mi, mi', hrun, hmerge, hnodup, hlookup⟩

end MasterIndex

end Rapi.Repository
