import Rapi.Repository.Index

/-!
# The master index

The master index holds the indexes of a repository and the blobs that are being
saved.  Its first index is always final, and the other final ones are merged
into it.  All functions below run under the lock of the master index, so that
each of them is one atomic action.
-/

namespace Rapi.Repository

open Foundation Restic List

theorem mem_sum_map {α β : Type} {f : α → Multiset β} {l : List α} {b : β} :
    b ∈ (l.map f).sum ↔ ∃ a ∈ l, b ∈ f a := by
  induction l with
  | nil => simp
  | cons a l ih => simp [ih]

structure MasterIndex where
  first : Index
  first_final : first.final
  rest : List Index
  pendingBlobs : Finset BlobHandle

namespace MasterIndex

def idx (mi : MasterIndex) : List Index := mi.first :: mi.rest

def new (seed : BlobType → ID → Nat) (now : Nat) : MasterIndex where
  first := (Index.new seed now).finalize
  first_final := rfl
  rest := []
  pendingBlobs := ∅

def lookup (mi : MasterIndex) (bh : BlobHandle) : List PackedBlob := mi.idx.flatMap (·.lookup bh)

def has (mi : MasterIndex) (bh : BlobHandle) : Bool := bh ∈ mi.pendingBlobs || mi.idx.any (·.has bh)

def lookupSize (mi : MasterIndex) (bh : BlobHandle) : Option Nat :=
  mi.idx.findSome? (·.lookupSize bh)

def each (mi : MasterIndex) : List PackedBlob := mi.idx.flatMap Index.each

/-- Whether the blob was not known before, and the blob as a pending one. -/
def addPending (mi : MasterIndex) (bh : BlobHandle) : Bool × MasterIndex :=
  if mi.has bh then (false, mi)
  else (true, { mi with pendingBlobs := insert bh mi.pendingBlobs })

/-- Store the pack in the first index that is not final, or in a new one. -/
def storeInto (id : ID) (blobs : List Blob) (newIdx : Index) : List Index → Option (List Index)
  | [] => (newIdx.storePack id blobs).map ([·])
  | idx :: rest =>
    if idx.final then (storeInto id blobs newIdx rest).map (idx :: ·)
    else (idx.storePack id blobs).map (· :: rest)

def storePack (mi : MasterIndex) (id : ID) (blobs : List Blob)
    (newIdx : Index) : Option MasterIndex :=
  (storeInto id blobs newIdx mi.rest).map fun rest =>
    { mi with
      rest := rest
      pendingBlobs := mi.pendingBlobs \ (blobs.map Blob.toBlobHandle).toFinset }

/-- Finalize the indexes that are not final and meet the condition. -/
def finalizeIf (condition : Index → Bool) (mi : MasterIndex) : List Index × MasterIndex :=
  let chosen := fun idx : Index => !idx.final && condition idx
  ((mi.rest.filter chosen).map Index.finalize,
    { mi with
      rest := mi.rest.map fun idx => if chosen idx then idx.finalize else idx })

def finalizeNotFinalIndexes (mi : MasterIndex) : List Index × MasterIndex :=
  mi.finalizeIf fun _ => true

def finalizeFullIndexes (now : Nat) (mi : MasterIndex) : List Index × MasterIndex :=
  mi.finalizeIf (Index.indexFull now)

def mergeRest (first : Index) : List Index → Except Index.MergeError (Index × List Index)
  | [] => .ok (first, [])
  | idx :: rest =>
    if idx.final then
      match first.merge idx with
      | .error err => .error err
      | .ok first => mergeRest first rest
    else
      match mergeRest first rest with
      | .error err => .error err
      | .ok (first, rest) => .ok (first, idx :: rest)

/-! ## What the master index says -/

def content (mi : MasterIndex) : Multiset PackedBlob :=
  mi.first.content + (mi.rest.map Index.content).sum

def InFinal (mi : MasterIndex) (pb : PackedBlob) : Prop :=
  ∃ idx ∈ mi.idx, idx.final ∧ pb ∈ idx.content

def InOpen (mi : MasterIndex) (pb : PackedBlob) : Prop :=
  ∃ idx ∈ mi.rest, idx.final = false ∧ pb ∈ idx.content

@[simp] theorem content_new (seed : BlobType → ID → Nat) (now : Nat) :
    (new seed now).content = 0 := rfl

variable {mi : MasterIndex} {pb : PackedBlob} {bh : BlobHandle}

theorem mem_content : pb ∈ mi.content ↔ ∃ idx ∈ mi.idx, pb ∈ idx.content := by
  simp [content, idx, mem_sum_map]

theorem mem_content_iff : pb ∈ mi.content ↔ mi.InFinal pb ∨ mi.InOpen pb := by
  rw [mem_content]
  constructor
  · rintro ⟨idx, hidx, hpb⟩
    cases hfinal : idx.final with
    | true => exact Or.inl ⟨idx, hidx, hfinal, hpb⟩
    | false =>
      rcases mem_cons.mp hidx with rfl | hidx
      · rw [mi.first_final] at hfinal
        cases hfinal
      · exact Or.inr ⟨idx, hidx, hfinal, hpb⟩
  · rintro (⟨idx, hidx, -, hpb⟩ | ⟨idx, hidx, -, hpb⟩)
    · exact ⟨idx, hidx, hpb⟩
    · exact ⟨idx, mem_cons_of_mem _ hidx, hpb⟩

theorem lookup_eq (mi : MasterIndex) (bh : BlobHandle) :
    (mi.lookup bh : Multiset PackedBlob) = mi.content.filter (·.toBlobHandle = bh) := by
  have hsum : ∀ rest : List Index,
      ((rest.flatMap (·.lookup bh) : List PackedBlob) : Multiset PackedBlob) =
        (rest.map Index.content).sum.filter (·.toBlobHandle = bh) := by
    intro rest
    induction rest with
    | nil => rfl
    | cons idx rest ih =>
      rw [flatMap_cons, ← Multiset.coe_add, ih, Index.lookup_eq,
        map_cons, sum_cons, Multiset.filter_add]
  rw [lookup, hsum]
  rfl

theorem mem_lookup : pb ∈ mi.lookup bh ↔ pb ∈ mi.content ∧ pb.toBlobHandle = bh := by
  rw [← Multiset.mem_coe, lookup_eq, Multiset.mem_filter]

theorem isSome_lookupSize :
    (mi.lookupSize bh).isSome ↔ ∃ pb ∈ mi.content, pb.toBlobHandle = bh := by
  simp only [lookupSize, findSome?_isSome_iff, Index.isSome_lookupSize, Index.has_iff, mem_content]
  constructor
  · rintro ⟨idx, hidx, pb, hpb, hbh⟩
    exact ⟨pb, ⟨idx, hidx, hpb⟩, hbh⟩
  · rintro ⟨pb, ⟨idx, hidx, hpb⟩, hbh⟩
    exact ⟨idx, hidx, pb, hpb, hbh⟩

theorem coe_each (mi : MasterIndex) : (mi.each : Multiset PackedBlob) = mi.content := by
  have hrest : ∀ idxs : List Index, (idxs.flatMap Index.each : Multiset PackedBlob) =
        (idxs.map Index.content).sum := by
    intro idxs
    induction idxs with
    | nil => rfl
    | cons idx idxs ih =>
      rw [flatMap_cons, ← Multiset.coe_add, Index.coe_each, ih, map_cons, sum_cons]
  exact hrest mi.idx

theorem mem_each : pb ∈ mi.each ↔ pb ∈ mi.content := by rw [← coe_each, Multiset.mem_coe]

theorem has_iff : mi.has bh ↔ bh ∈ mi.pendingBlobs ∨
      ∃ pb ∈ mi.content, pb.toBlobHandle = bh := by
  simp only [has, Bool.or_eq_true, decide_eq_true_eq, any_eq_true, Index.has_iff, mem_content]
  constructor
  · rintro (h | ⟨idx, hidx, pb, hpb, hbh⟩)
    · exact Or.inl h
    · exact Or.inr ⟨pb, ⟨idx, hidx, hpb⟩, hbh⟩
  · rintro (h | ⟨pb, ⟨idx, hidx, hpb⟩, hbh⟩)
    · exact Or.inl h
    · exact Or.inr ⟨idx, hidx, pb, hpb, hbh⟩

/-- Nothing is dropped but pending blobs that have an entry. -/
structure Keeps (mi mi' : MasterIndex) : Prop where
  pending : ∀ bh ∈ mi.pendingBlobs, bh ∈ mi'.pendingBlobs ∨
    ∃ pb ∈ mi'.content, pb.toBlobHandle = bh
  content : ∀ pb ∈ mi.content, pb ∈ mi'.content

theorem Keeps.has {mi' : MasterIndex} (h : mi.Keeps mi') (hhas : mi.has bh) : mi'.has bh := by
  rw [has_iff] at hhas ⊢
  rcases hhas with hbh | ⟨pb, hpb, rfl⟩
  · exact h.pending bh hbh
  · exact Or.inr ⟨pb, h.content pb hpb, rfl⟩

/-! ## What the actions do to it -/

section Specifications

variable {mi mi' : MasterIndex} {id : ID} {blobs : List Blob} {newIdx : Index}

private theorem storeInto_spec (hnew : newIdx.content = 0) {rest rest' : List Index}
    (h : storeInto id blobs newIdx rest = some rest') : (rest'.map Index.content).sum =
        (blobs.map (Index.packed id) : Multiset PackedBlob) + (rest.map Index.content).sum ∧
      rest'.filter (·.final) = rest.filter (·.final) := by
  induction rest generalizing rest' with
  | nil =>
    obtain ⟨stored, hstored, rfl⟩ := Option.map_eq_some_iff.mp h
    obtain ⟨hcontent, hfinal⟩ := Index.storePack_spec hstored
    simp [hcontent, hfinal, hnew]
  | cons idx rest ih =>
    rw [storeInto] at h
    split at h
    · rename_i hfinal
      obtain ⟨stored, hstored, rfl⟩ := Option.map_eq_some_iff.mp h
      obtain ⟨hcontent, hfilter⟩ := ih hstored
      constructor
      · rw [map_cons, sum_cons, hcontent, map_cons, sum_cons, add_left_comm]
      · rw [filter_cons_of_pos hfinal, filter_cons_of_pos hfinal, hfilter]
    · rename_i hfinal
      obtain ⟨stored, hstored, rfl⟩ := Option.map_eq_some_iff.mp h
      obtain ⟨hcontent, hopen⟩ := Index.storePack_spec hstored
      constructor
      · rw [map_cons, sum_cons, hcontent, map_cons, sum_cons, add_assoc]
      · rw [filter_cons_of_neg hfinal, filter_cons_of_neg (by simp [hopen])]

variable {pb : PackedBlob} {chosen : List Index}

theorem inFinal_iff : mi.InFinal pb ↔ pb ∈ mi.first.content ∨
      ∃ idx ∈ mi.rest.filter (·.final), pb ∈ idx.content := by
  simp [InFinal, idx, mi.first_final, and_assoc]

theorem storePack_spec (hnew : newIdx.content = 0) (h : mi.storePack id blobs newIdx = some mi') :
    mi'.content = (blobs.map (Index.packed id) : Multiset PackedBlob) + mi.content ∧
      mi'.pendingBlobs = mi.pendingBlobs \ (blobs.map Blob.toBlobHandle).toFinset ∧
      ∀ pb, mi'.InFinal pb ↔ mi.InFinal pb := by
  obtain ⟨rest, hrest, rfl⟩ := Option.map_eq_some_iff.mp h
  obtain ⟨hcontent, hfilter⟩ := storeInto_spec hnew hrest
  refine ⟨?_, rfl, fun pb => ?_⟩
  · rw [content, content, hcontent, add_left_comm]
  · rw [inFinal_iff, inFinal_iff, hfilter]

theorem exists_storePack (mi : MasterIndex) (hfinal : newIdx.final = false)
    (hfits : ∀ b ∈ blobs, b.offset ≤ Index.maxuint32 ∧ b.length ≤ Index.maxuint32)
    (id : ID) : ∃ mi', mi.storePack id blobs newIdx = some mi' := by
  have hrest : ∀ rest, ∃ rest', storeInto id blobs newIdx rest = some rest' := by
    intro rest
    induction rest with
    | nil =>
      obtain ⟨idx, hidx⟩ := Index.exists_storePack hfinal hfits id
      exact ⟨[idx], by rw [storeInto, hidx]; rfl⟩
    | cons idx rest ih =>
      rw [storeInto]
      split
      · obtain ⟨rest', hrest⟩ := ih
        exact ⟨idx :: rest', by rw [hrest]; rfl⟩
      · rename_i hopen
        obtain ⟨idx', hidx⟩ := Index.exists_storePack (Bool.eq_false_iff.mpr hopen) hfits id
        exact ⟨idx' :: rest, by rw [hidx]; rfl⟩
  obtain ⟨rest, hstored⟩ := hrest mi.rest
  exact ⟨_, congrArg (Option.map _) hstored⟩

theorem keeps_storePack (hnew : newIdx.content = 0)
    (h : mi.storePack id blobs newIdx = some mi') : mi.Keeps mi' := by
  obtain ⟨hcontent, hpending, -⟩ := storePack_spec hnew h
  constructor
  · intro bh hbh
    by_cases hin : bh ∈ (blobs.map Blob.toBlobHandle).toFinset
    · right
      simp only [mem_toFinset, mem_map] at hin
      obtain ⟨blob, hblob, rfl⟩ := hin
      refine ⟨Index.packed id blob, ?_, rfl⟩
      rw [hcontent, Multiset.mem_add, Multiset.mem_coe]
      exact Or.inl (mem_map_of_mem hblob)
    · left
      rw [hpending, Finset.mem_sdiff]
      exact ⟨hbh, hin⟩
  · intro pb hpb
    rw [hcontent, Multiset.mem_add]
    exact Or.inr hpb

private theorem storeInto_open (hnew : newIdx.content = 0) {rest rest' : List Index}
    (h : storeInto id blobs newIdx rest = some rest')
    (hpb : ∃ idx ∈ rest', idx.final = false ∧ pb ∈ idx.content) : pb ∈ blobs.map (Index.packed id) ∨
      ∃ idx ∈ rest, idx.final = false ∧ pb ∈ idx.content := by
  obtain ⟨idx', hidx', hopen, hpb⟩ := hpb
  induction rest generalizing rest' with
  | nil =>
    obtain ⟨stored, hstored, rfl⟩ := Option.map_eq_some_iff.mp h
    obtain ⟨hcontent, -⟩ := Index.storePack_spec hstored
    rw [mem_singleton.mp hidx', hcontent, hnew, add_zero] at hpb
    exact Or.inl hpb
  | cons idx rest ih =>
    rw [storeInto] at h
    split at h
    · rename_i hfinal
      obtain ⟨stored, hstored, rfl⟩ := Option.map_eq_some_iff.mp h
      rcases mem_cons.mp hidx' with rfl | hidx'
      · rw [hfinal] at hopen
        cases hopen
      · refine (ih hstored hidx').imp_right fun ⟨other, hother, hrest⟩ => ?_
        exact ⟨other, mem_cons_of_mem _ hother, hrest⟩
    · rename_i hfinal
      obtain ⟨stored, hstored, rfl⟩ := Option.map_eq_some_iff.mp h
      obtain ⟨hcontent, -⟩ := Index.storePack_spec hstored
      rcases mem_cons.mp hidx' with rfl | hidx'
      · rw [hcontent, Multiset.mem_add] at hpb
        refine hpb.imp_right fun hpb => ⟨idx, by simp, ?_, hpb⟩
        simpa using hfinal
      · exact Or.inr ⟨idx', mem_cons_of_mem _ hidx', hopen, hpb⟩

theorem inOpen_storePack (hnew : newIdx.content = 0) (h : mi.storePack id blobs newIdx = some mi')
    (hpb : mi'.InOpen pb) : pb ∈ blobs.map (Index.packed id) ∨ mi.InOpen pb := by
  obtain ⟨rest, hrest, rfl⟩ := Option.map_eq_some_iff.mp h
  exact storeInto_open hnew hrest hpb

theorem addPending_spec {bh : BlobHandle} {new : Bool} (h : mi.addPending bh = (new, mi')) :
    mi'.first = mi.first ∧ mi'.rest = mi.rest ∧
      (new = false ∧ mi.has bh ∧ mi' = mi ∨
        new ∧ mi.has bh = false ∧
          mi'.pendingBlobs = insert bh mi.pendingBlobs) := by
  unfold addPending at h
  split at h
  · rename_i hhas
    cases h
    exact ⟨rfl, rfl, Or.inl ⟨rfl, hhas, rfl⟩⟩
  · rename_i hhas
    cases h
    exact ⟨rfl, rfl, Or.inr ⟨rfl, by simpa using hhas, rfl⟩⟩

theorem keeps_addPending {bh : BlobHandle} {new : Bool}
    (h : mi.addPending bh = (new, mi')) : mi.Keeps mi' := by
  obtain ⟨hfirst, hrest, hcases⟩ := addPending_spec h
  constructor
  · intro other hother
    left
    rcases hcases with ⟨-, -, rfl⟩ | ⟨-, -, hpending⟩
    · exact hother
    · rw [hpending]
      exact Finset.mem_insert_of_mem hother
  · rw [content, content, hfirst, hrest]
    exact fun _ h => h

theorem finalizeIf_spec (condition : Index → Bool) (h : mi.finalizeIf condition = (chosen, mi')) :
    mi'.content = mi.content ∧ mi'.pendingBlobs = mi.pendingBlobs ∧
      (∀ pb, mi'.InFinal pb ↔ mi.InFinal pb ∨ ∃ idx ∈ chosen, pb ∈ idx.content) ∧
      ∀ idx ∈ chosen, idx.final ∧ idx.content ⊆ mi.content := by
  unfold finalizeIf at h
  cases h
  refine ⟨?_, rfl, fun pb => ?_, ?_⟩
  · rw [content, content]
    dsimp only
    rw [map_map]
    congr 2
    apply map_congr_left
    intro idx _
    dsimp only [Function.comp]
    split <;> rfl
  · rw [inFinal_iff, inFinal_iff, or_assoc]
    apply or_congr Iff.rfl
    simp only [mem_filter, mem_map]
    constructor
    · rintro ⟨_, ⟨⟨idx, hidx, rfl⟩, hfinal⟩, hpb⟩
      split at hpb
      · rename_i hchosen
        exact Or.inr ⟨_, ⟨idx, ⟨hidx, hchosen⟩, rfl⟩, hpb⟩
      · rename_i hchosen
        rw [if_neg hchosen] at hfinal
        exact Or.inl ⟨idx, ⟨hidx, hfinal⟩, hpb⟩
    · rintro (⟨idx, ⟨hidx, hfinal⟩, hpb⟩ | ⟨_, ⟨idx, ⟨hidx, hchosen⟩, rfl⟩, hpb⟩)
      · refine ⟨idx, ⟨⟨idx, hidx, ?_⟩, hfinal⟩, hpb⟩
        rw [if_neg (by simp [hfinal])]
      · refine ⟨idx.finalize, ⟨⟨idx, hidx, ?_⟩, rfl⟩, hpb⟩
        rw [if_pos hchosen]
  · intro _ hmem
    obtain ⟨idx, hidx, rfl⟩ := mem_map.mp hmem
    refine ⟨rfl, fun pb hpb => mem_content.mpr ⟨idx, ?_, hpb⟩⟩
    exact mem_cons_of_mem _ (mem_filter.mp hidx).1

theorem keeps_finalizeIf (condition : Index → Bool)
    (h : mi.finalizeIf condition = (chosen, mi')) : mi.Keeps mi' := by
  obtain ⟨hcontent, hpending, -⟩ := finalizeIf_spec condition h
  exact ⟨fun bh hbh => Or.inl (hpending ▸ hbh), fun pb hpb => hcontent ▸ hpb⟩

theorem inOpen_finalizeIf {condition : Index → Bool} (h : mi.finalizeIf condition = (chosen, mi'))
    (hpb : mi'.InOpen pb ∨ ∃ idx ∈ chosen, pb ∈ idx.content) : mi.InOpen pb := by
  unfold finalizeIf at h
  cases h
  rcases hpb with ⟨_, hmem, hopen, hpb⟩ | ⟨_, hmem, hpb⟩
  · obtain ⟨idx, hidx, rfl⟩ := mem_map.mp hmem
    split at hopen
    · cases hopen
    · rename_i hchosen
      rw [if_neg hchosen] at hpb
      exact ⟨idx, hidx, hopen, hpb⟩
  · obtain ⟨idx, hfilter, rfl⟩ := mem_map.mp hmem
    obtain ⟨hidx, hchosen⟩ := mem_filter.mp hfilter
    rw [Bool.and_eq_true] at hchosen
    exact ⟨idx, hidx, by simpa using hchosen.1, hpb⟩

theorem not_inOpen_finalizeNotFinalIndexes (h : mi.finalizeNotFinalIndexes = (chosen, mi'))
    (pb : PackedBlob) : ¬ mi'.InOpen pb := by
  cases h
  rintro ⟨_, hidx, hopen, -⟩
  obtain ⟨idx, -, rfl⟩ := mem_map.mp hidx
  cases hfinal : idx.final with
  | true => simp [hfinal] at hopen
  | false => simp [hfinal, Index.finalize] at hopen

private theorem mergeRest_spec {first : Index} (hfirst : first.final) (rest : List Index) :
    ∃ first' rest', mergeRest first rest = .ok (first', rest') ∧
      first'.final ∧ rest' = rest.filter (fun idx => !idx.final) ∧
      first'.content + (rest'.map Index.content).sum ≤
        first.content + (rest.map Index.content).sum ∧
      ∀ pb, pb ∈ first'.content ↔ pb ∈ first.content ∨
        ∃ idx ∈ rest.filter (·.final), pb ∈ idx.content := by
  induction rest generalizing first with
  | nil => exact ⟨first, [], rfl, hfirst, rfl, le_refl _, by simp⟩
  | cons idx rest ih =>
    rw [mergeRest]
    by_cases hfinal : idx.final
    · obtain ⟨merged, hmerge, hmerged, hcontent⟩ := Index.merge_spec first hfinal
      obtain ⟨first', rest', heq, hfirst', hrest', hle, hmem⟩ := ih (hmerged.trans hfirst)
      rw [if_pos hfinal, hmerge]
      refine ⟨first', rest', heq, hfirst', ?_, ?_, fun pb => ?_⟩
      · rw [hrest', filter_cons_of_neg (by simp [hfinal])]
      · refine hle.trans ?_
        rw [map_cons, sum_cons, ← add_assoc, hcontent]
        refine add_le_add_left (Multiset.union_le_add _ _ |>.trans ?_) _
        exact add_le_add_right (Multiset.dedup_le _) _
      · rw [hmem, hcontent, Multiset.mem_union, Multiset.mem_dedup, filter_cons_of_pos hfinal]
        simp [or_assoc]
    · obtain ⟨first', rest', heq, hfirst', hrest', hle, hmem⟩ := ih hfirst
      rw [if_neg hfinal, heq]
      refine ⟨first', idx :: rest', rfl, hfirst', ?_, ?_, fun pb => ?_⟩
      · rw [hrest', filter_cons_of_pos (by simp [hfinal])]
      · rw [map_cons, sum_cons, map_cons, sum_cons, add_left_comm, add_left_comm first.content]
        exact add_le_add_right hle _
      · rw [hmem, filter_cons_of_neg hfinal]

end Specifications

def mergeFinalIndexes (mi : MasterIndex) : Except Index.MergeError MasterIndex :=
  match h : mergeRest mi.first mi.rest with
  | .error err => .error err
  | .ok (first, rest) =>
    .ok
      { mi with
        first := first
        rest := rest
        first_final := by
          obtain ⟨first', rest', heq, hfinal, -⟩ := mergeRest_spec mi.first_final mi.rest
          rw [h] at heq
          cases heq
          exact hfinal }

/-- Merging does not fail, and loses nothing but exact duplicates. -/
theorem mergeFinalIndexes_spec (mi : MasterIndex) : ∃ mi', mi.mergeFinalIndexes = .ok mi' ∧
      mi'.pendingBlobs = mi.pendingBlobs ∧ mi'.content ≤ mi.content ∧
      (∀ pb, pb ∈ mi'.content ↔ pb ∈ mi.content) ∧
      (∀ pb, mi'.InFinal pb ↔ mi.InFinal pb) ∧
      ∀ pb, mi'.InOpen pb ↔ mi.InOpen pb := by
  obtain ⟨first', rest', heq, hfinal, hrest, hle, hmem⟩ := mergeRest_spec mi.first_final mi.rest
  refine ⟨⟨first', hfinal, rest', mi.pendingBlobs⟩, ?_, rfl, hle,
    fun pb => ?_, fun pb => ?_, fun pb => ?_⟩
  · unfold mergeFinalIndexes
    split
    · rename_i err herr
      rw [heq] at herr
      cases herr
    · rename_i first rest hok
      rw [heq] at hok
      cases hok
      rfl
  · rw [mem_content, mem_content]
    simp only [idx, mem_cons, exists_eq_or_imp, hmem, hrest, mem_filter]
    constructor
    · rintro ((h | ⟨idx, ⟨hidx, -⟩, hpb⟩) | ⟨idx, ⟨hidx, -⟩, hpb⟩)
      · exact Or.inl h
      · exact Or.inr ⟨idx, hidx, hpb⟩
      · exact Or.inr ⟨idx, hidx, hpb⟩
    · rintro (h | ⟨idx, hidx, hpb⟩)
      · exact Or.inl (Or.inl h)
      · cases hidxfinal : idx.final with
        | true => exact Or.inl (Or.inr ⟨idx, ⟨hidx, hidxfinal⟩, hpb⟩)
        | false => exact Or.inr ⟨idx, ⟨hidx, by simp [hidxfinal]⟩, hpb⟩
  · rw [inFinal_iff, inFinal_iff, hmem]
    dsimp only
    rw [hrest, filter_filter]
    simp
  · simp [InOpen, hrest, and_assoc]

theorem keeps_mergeFinalIndexes {mi' : MasterIndex}
    (h : mi.mergeFinalIndexes = .ok mi') : mi.Keeps mi' := by
  obtain ⟨merged, hmerge, hpending, -, hcontent, -⟩ := mi.mergeFinalIndexes_spec
  rw [hmerge] at h
  cases h
  exact ⟨fun bh hbh => Or.inl (hpending ▸ hbh), fun pb hpb => (hcontent pb).mpr hpb⟩

end MasterIndex

end Rapi.Repository
