import Rapi.Repository.IndexRoundTrip
import Rapi.Repository.SaveAll

/-!
# The views of an index

What was stored in an index is seen from several sides: entry by entry, by
handle, by pack, or as a number.  The calls that store may use one pack many
times, by `Store` and by `StorePack`; the positions they give to the pack differ,
but no view depends on them.
-/

namespace Rapi.Repository

open Foundation Restic Multiset Index Option

namespace Index

def count (idx : Index) (t : BlobType) : Nat := (idx.byType t).len

def packSet (idx : Index) : Finset ID := idx.packs.toFinset

theorem count_eq (idx : Index) (t : BlobType) :
    idx.count t = (idx.content.filter (·.type = t)).card := by
  have hfilter : idx.content.filter (·.type = t) = typed idx.packs t (idx.byType t) := by
    ext pb
    rw [count_filter]
    split
    · rename_i htype
      rw [content, count_contentOf, htype]
    · rename_i htype
      refine (count_eq_zero.mpr fun hmem => ?_).symm
      exact htype (type_of_mem_typed hmem)
  rw [hfilter, typed, card_map, count, IndexMap.len, (idx.byType t).counted]
  rfl

theorem storeAt_eq_none {idx : Index} {packIndex : Nat} {blob : Blob}
    (hpack : packIndex < idx.packs.length) (h : idx.storeAt packIndex blob = none) :
    maxuint32 < blob.offset ∨ maxuint32 < blob.length := by
  unfold storeAt at h
  rw [dif_pos hpack] at h
  split at h
  · rename_i hnone
    by_contra hfits
    rw [storeAll, store, if_neg hfits] at hnone
    cases hnone
  · cases h

end Index

/-! ## Storing -/

namespace OpenIndex

def Edit.Nonempty : Edit → Prop
  | .storePack _ blobs => blobs ≠ []
  | _ => True

/-- The index has the given entries, and its packs are theirs. -/
structure Has (o : OpenIndex) (stored : Multiset PackedBlob) : Prop where
  known : ∀ id i, o.packIDToIndex id = some i → o.index.packs[i]? = some id
  content : o.index.content = stored
  open_ : o.index.final = false
  packs : ∀ id, id ∈ o.index.packs ↔ ∃ pb ∈ stored, pb.packID = id

variable {o : OpenIndex}

theorem Has.step {o' : OpenIndex} {stored : Multiset PackedBlob} {edit : Edit}
    (ho : o.Has stored) (hedit : edit.Nonempty) (h : o.step edit = some o') :
    o'.Has ((edit.entries : Multiset PackedBlob) + stored) := by
  cases edit with
  | store pb =>
    obtain ⟨hknown, hcontent, hpacks, hfinal⟩ := store_spec ho.known h
    refine ⟨hknown, ?_, hfinal.trans ho.open_, ?_⟩
    · rw [hcontent, ho.content]
      rfl
    · intro id
      rw [hpacks, ho.packs]
      simp [Edit.entries, eq_comm]
  | storePack id blobs =>
    obtain ⟨idx, hidx, rfl⟩ := map_eq_some_iff.mp h
    obtain ⟨hcontent, hfinal⟩ := storePack_spec hidx
    obtain ⟨hpacks, -⟩ := storePack_fields hidx
    refine ⟨?_, ?_, hfinal, ?_⟩
    · intro id' i hi
      rw [hpacks]
      exact known_append (ho.known id' i hi) _
    · rw [hcontent, ho.content]
      rfl
    · -- a blob of the pack is an entry with its ID
      obtain ⟨blob, hblob⟩ := List.exists_mem_of_ne_nil blobs hedit
      intro id'
      rw [hpacks, List.mem_append, List.mem_singleton, ho.packs]
      constructor
      · rintro (⟨pb, hpb, hid⟩ | rfl)
        · exact ⟨pb, mem_add.mpr (Or.inr hpb), hid⟩
        · refine ⟨packed id' blob, mem_add.mpr (Or.inl ?_), rfl⟩
          exact List.mem_map_of_mem hblob
      · rintro ⟨pb, hpb, hid⟩
        rcases mem_add.mp hpb with hpb | hpb
        · obtain ⟨_, -, rfl⟩ := List.mem_map.mp hpb
          exact Or.inr hid.symm
        · exact Or.inl ⟨pb, hpb, hid⟩
  | addToSupersedes ids =>
    obtain ⟨idx, hidx, rfl⟩ := map_eq_some_iff.mp h
    unfold addToSupersedes at hidx
    split at hidx
    · cases hidx
    · cases hidx
      rw [Edit.entries, coe_nil, zero_add]
      exact ⟨ho.known, ho.content, ho.open_, ho.packs⟩

theorem Has.unfit_of_none {stored : Multiset PackedBlob} {edit : Edit}
    (ho : o.Has stored) (h : o.step edit = none) :
    ∃ pb ∈ edit.entries, Index.maxuint32 < pb.offset ∨ Index.maxuint32 < pb.length := by
  cases edit with
  | store pb =>
    refine ⟨pb, List.mem_cons_self, ?_⟩
    simp only [OpenIndex.step, store, ho.open_, Bool.false_eq_true, if_false] at h
    split at h
    · rename_i packIndex hpos
      refine storeAt_eq_none ?_ (map_eq_none_iff.mp h)
      exact (List.getElem?_eq_some_iff.mp (ho.known _ _ hpos)).1
    · refine storeAt_eq_none ?_ (map_eq_none_iff.mp h)
      simp [addToPacks]
  | storePack id blobs =>
    by_contra hfits
    push Not at hfits
    have hblobs : ∀ b ∈ blobs, b.offset ≤ maxuint32 ∧
        b.length ≤ maxuint32 :=
      fun b hb => hfits _ (List.mem_map_of_mem hb)
    obtain ⟨idx, hidx⟩ := exists_storePack ho.open_ hblobs id
    simp [OpenIndex.step, hidx] at h
  | addToSupersedes ids => simp [OpenIndex.step, addToSupersedes, ho.open_] at h

def runEdits (seed : BlobType → ID → Nat) (now : Nat) (edits : List Edit) : Option OpenIndex :=
  edits.foldlM step (new seed now)

def entriesOf (edits : List Edit) : Multiset PackedBlob :=
  (edits.flatMap Edit.entries : List PackedBlob)

theorem runEdits_append (seed : BlobType → ID → Nat) (now : Nat) (edits : List Edit) (edit : Edit) :
    runEdits seed now (edits ++ [edit]) = (runEdits seed now edits).bind (·.step edit) := by
  rw [runEdits, List.foldlM_append]
  simp [runEdits]

theorem entriesOf_append (edits : List Edit) (edit : Edit) : entriesOf (edits ++ [edit]) =
      (edit.entries : Multiset PackedBlob) + entriesOf edits := by
  simp [entriesOf, ← coe_add, add_comm]

theorem has_runEdits {seed : BlobType → ID → Nat} {now : Nat} {edits : List Edit}
    (hedits : ∀ edit ∈ edits, edit.Nonempty) (h : runEdits seed now edits = some o) :
    o.Has (entriesOf edits) := by
  induction edits using List.reverseRecOn generalizing o with
  | nil =>
    cases h
    exact ⟨nofun, rfl, rfl, by simp [new, Index.new, entriesOf]⟩
  | append_singleton edits edit ih =>
    rw [runEdits_append] at h
    obtain ⟨before, hbefore, hstep⟩ := bind_eq_some_iff.mp h
    have hhas := ih (fun e he => hedits e (by simp [he])) hbefore
    rw [entriesOf_append]
    exact hhas.step (hedits edit (by simp)) hstep

theorem unfit_of_runEdits {seed : BlobType → ID → Nat} {now : Nat} {edits : List Edit}
    (hedits : ∀ edit ∈ edits, edit.Nonempty) (h : runEdits seed now edits = none) :
    ∃ pb ∈ entriesOf edits, Index.maxuint32 < pb.offset ∨ Index.maxuint32 < pb.length := by
  induction edits using List.reverseRecOn with
  | nil => cases h
  | append_singleton edits edit ih =>
    have hbefore : ∀ e ∈ edits, e.Nonempty := fun e he => hedits e (by simp [he])
    rw [runEdits_append] at h
    rw [entriesOf_append]
    cases hrun : runEdits seed now edits with
    | none =>
      obtain ⟨pb, hpb, hunfit⟩ := ih hbefore hrun
      exact ⟨pb, mem_add.mpr (Or.inr hpb), hunfit⟩
    | some o =>
      rw [hrun, bind_some] at h
      obtain ⟨pb, hpb, hunfit⟩ := (has_runEdits hbefore hrun).unfit_of_none h
      exact ⟨pb, mem_add.mpr (Or.inl hpb), hunfit⟩

end OpenIndex

/-! ## The views -/

theorem sum_filter_eq {α κ : Type} [DecidableEq κ] (key : α → κ) (s : Multiset α) {keys : Finset κ}
    (h : ∀ a ∈ s, key a ∈ keys) : ∑ k ∈ keys, s.filter (key · = k) = s := by
  induction s using Multiset.induction with
  | empty => simp
  | cons a s ih =>
    obtain ⟨ha, hs⟩ := forall_mem_cons.mp h
    simp only [filter_cons, Finset.sum_add_distrib, ih hs]
    rw [Finset.sum_ite_eq, if_pos ha, singleton_add]

structure Index.Shows (idx : Index) (stored : Multiset PackedBlob) : Prop where
  each : (idx.each : Multiset PackedBlob) = stored
  lookup : ∀ handles : Finset BlobHandle, (∀ pb ∈ stored, pb.toBlobHandle ∈ handles) →
      ∑ bh ∈ handles, (idx.lookup bh : Multiset PackedBlob) = stored
  listPack : ∀ ids : Finset ID, (∀ pb ∈ stored, pb.packID ∈ ids) →
    ∑ id ∈ ids, (idx.listPack id : Multiset PackedBlob) = stored
  eachByPack : ∀ results, idx.EachByPack ∅ results → listedIn results = stored
  has : ∀ bh, idx.has bh ↔ ∃ pb ∈ stored, pb.toBlobHandle = bh
  count : ∀ t, idx.count t = (stored.filter (·.type = t)).card
  packs : ∀ id, id ∈ idx.packSet ↔ ∃ pb ∈ stored, pb.packID = id

theorem OpenIndex.Has.shows {o : OpenIndex} {stored : Multiset PackedBlob}
    (ho : o.Has stored) : o.index.Shows stored where
  each := by rw [coe_each, ho.content]
  lookup handles hhandles := by
    simp only [lookup_eq, ho.content]
    exact sum_filter_eq _ stored hhandles
  listPack ids hids := by
    simp only [listPack_eq, ho.content]
    exact sum_filter_eq _ stored hids
  eachByPack results h := by
    rw [h.listed, kept, ho.content]
    simp
  has bh := by rw [has_iff, ho.content]
  count t := by rw [count_eq, ho.content]
  packs id := by rw [packSet, List.mem_toFinset, ho.packs]

/-- The views of an index agree after any calls of `Store` and `StorePack`. -/
theorem index_views_agree (seed : BlobType → ID → Nat) (now : Nat)
    (edits : List OpenIndex.Edit)
    (hedits : ∀ edit ∈ edits, OpenIndex.Edit.Nonempty edit) :
    (OpenIndex.runEdits seed now edits = none →
      ∃ pb ∈ OpenIndex.entriesOf edits,
        Index.maxuint32 < pb.offset ∨ Index.maxuint32 < pb.length) ∧
    ∀ o, OpenIndex.runEdits seed now edits = some o →
      o.index.Shows (OpenIndex.entriesOf edits) ∧
      ∀ packBlacklist results,
        o.index.finalize.EachByPack packBlacklist results →
          listedIn results = (OpenIndex.entriesOf edits).filter
            (·.packID ∉ packBlacklist) := by
  refine ⟨OpenIndex.unfit_of_runEdits hedits, ?_⟩
  intro o ho
  have hrun := OpenIndex.has_runEdits hedits ho
  refine ⟨hrun.shows, fun packBlacklist results h => ?_⟩
  rw [h.listed, kept, content_finalize, hrun.content]
  simp

def sampleEdits : List OpenIndex.Edit :=
  [.store ⟨⟨⟨.ofNat 1, .data⟩, 40, 0⟩, .ofNat 9⟩,
    .storePack (.ofNat 9) [⟨⟨.ofNat 1, .data⟩, 40, 0⟩, ⟨⟨.ofNat 2, .tree⟩, 50, 40⟩]]

theorem index_views_agree_sample :
    ∃ o, OpenIndex.runEdits (fun _ _ => 0) 0 sampleEdits = some o ∧
      o.index.Shows (OpenIndex.entriesOf sampleEdits) ∧
      o.index.count .data = 2 := by
  have hviews := index_views_agree (fun _ _ => 0) 0 sampleEdits
    (by simp [sampleEdits, OpenIndex.Edit.Nonempty])
  have hfits : ∀ pb ∈ OpenIndex.entriesOf sampleEdits,
      ¬ (maxuint32 < pb.offset ∨ maxuint32 < pb.length) := by
    decide
  cases hrun : OpenIndex.runEdits (fun _ _ => 0) 0 sampleEdits with
  | none =>
    obtain ⟨pb, hpb, hunfit⟩ := hviews.1 hrun
    exact absurd hunfit (hfits pb hpb)
  | some o =>
    have hshows := (hviews.2 o hrun).1
    refine ⟨o, rfl, hshows, ?_⟩
    rw [hshows.count]
    decide

end Rapi.Repository
