import Rapi.Repository.IndexMap

/-!
# Indexes

An index has a hash table for every blob type, whose entries refer to packs by
their position in a list.  What it says is the multiset of its packed blobs; the
operations are specified by what they do to that multiset.  Times are in
seconds.  The map from pack IDs to positions, which only `Store` uses, is left
out.
-/

namespace Rapi.Repository

open Foundation Restic Multiset

def toPackedBlob (packs : List ID) (t : BlobType) (e : IndexEntry) : PackedBlob :=
  { id := e.id, type := t, length := e.length, offset := e.offset,
    packID := packs.getD e.packIndex .null }

structure Index where
  byType : BlobType → IndexMap
  packs : List ID
  mixedPacks : List ID
  final : Bool
  ids : List ID
  supersedes : List ID
  created : Nat
  inRange : ∀ t, ∀ e ∈ (byType t).entries, e.packIndex < packs.length

/-! ## The content of an index -/

def typed (packs : List ID) (t : BlobType) (m : IndexMap) : Multiset PackedBlob :=
  (m.entries : Multiset IndexEntry).map (toPackedBlob packs t)

def contentOf (packs : List ID) (byType : BlobType → IndexMap) : Multiset PackedBlob :=
  typed packs .invalid (byType .invalid) + typed packs .data (byType .data) +
    typed packs .tree (byType .tree)

def Index.content (idx : Index) : Multiset PackedBlob := contentOf idx.packs idx.byType

section Content

variable {packs : List ID} {byType : BlobType → IndexMap} {t : BlobType}
  {pb : PackedBlob} {m : IndexMap}

theorem type_of_mem_typed (h : pb ∈ typed packs t m) : pb.type = t := by
  obtain ⟨e, -, rfl⟩ := mem_map.mp h
  rfl

theorem count_contentOf (pb : PackedBlob) : (contentOf packs byType).count pb =
      (typed packs pb.type (byType pb.type)).count pb := by
  have hother : ∀ t, t ≠ pb.type → (typed packs t (byType t)).count pb = 0 := by
    intro t ht
    rw [count_eq_zero]
    intro hmem
    exact ht (type_of_mem_typed hmem).symm
  rw [contentOf, count_add, count_add]
  cases htype : pb.type with
  | invalid => simp [hother .data, hother .tree, htype]
  | data => simp [hother .invalid, hother .tree, htype]
  | tree => simp [hother .invalid, hother .data, htype]

theorem mem_contentOf :
    pb ∈ contentOf packs byType ↔ pb ∈ typed packs pb.type (byType pb.type) := by
  rw [← count_pos, ← count_pos, count_contentOf]

theorem typed_add (e : IndexEntry) :
    typed packs t (m.add e) = toPackedBlob packs t e ::ₘ typed packs t m := by
  rw [typed, coe_eq_coe.mpr (m.entries_add e)]
  rfl

theorem toPackedBlob_append {e : IndexEntry} (more : List ID) (h : e.packIndex < packs.length) :
    toPackedBlob (packs ++ more) t e = toPackedBlob packs t e := by
  unfold toPackedBlob
  rw [List.getD_append _ _ _ _ h]

theorem typed_append (more : List ID) (h : ∀ e ∈ m.entries, e.packIndex < packs.length) :
    typed (packs ++ more) t m = typed packs t m :=
  map_congr rfl fun e he => toPackedBlob_append more (h e (by simpa using he))

end Content

namespace Index

def new (seed : BlobType → ID → Nat) (now : Nat) : Index where
  byType t := .new (seed t)
  packs := []
  mixedPacks := []
  final := false
  ids := []
  supersedes := []
  created := now
  inRange := by simp

@[simp] theorem content_new (seed : BlobType → ID → Nat) (now : Nat) :
    (new seed now).content = 0 := rfl

/-! ## Storing packs -/

def maxuint32 : Nat := 2 ^ 32 - 1

/-- The entry of a blob; the code panics when it does not fit. -/
def store (packIndex : Nat) (byType : BlobType → IndexMap) (blob : Blob) :
    Option (BlobType → IndexMap) :=
  if maxuint32 < blob.offset ∨ maxuint32 < blob.length then none
  else some (Function.update byType blob.type ((byType blob.type).add
    ⟨blob.id, packIndex, blob.offset, blob.length⟩))

def storeAll (packIndex : Nat) : List Blob → (BlobType → IndexMap) → Option (BlobType → IndexMap)
  | [], byType => some byType
  | blob :: blobs, byType =>
    match store packIndex byType blob with
    | none => none
    | some byType => storeAll packIndex blobs byType

def packed (packID : ID) (blob : Blob) : PackedBlob := { blob with packID := packID }

section Store

variable {packs : List ID} {packIndex : Nat} {packID : ID} {byType byType' : BlobType → IndexMap}

private theorem contentOf_store {blob : Blob} (hpack : packs.getD packIndex .null = packID)
    (h : store packIndex byType blob = some byType') :
    contentOf packs byType' = packed packID blob ::ₘ contentOf packs byType := by
  unfold store at h
  split at h
  · cases h
  · cases h
    have hentry : toPackedBlob packs blob.type
        ⟨blob.id, packIndex, blob.offset, blob.length⟩ = packed packID blob := by
      rw [toPackedBlob, packed, hpack]
    unfold contentOf
    cases htype : blob.type <;> rw [htype] at hentry <;>
      simp [typed_add, hentry, add_cons, cons_add]

theorem contentOf_storeAll {blobs : List Blob} (hpack : packs.getD packIndex .null = packID)
    (h : storeAll packIndex blobs byType = some byType') : contentOf packs byType' =
      (blobs.map (packed packID) : Multiset PackedBlob) + contentOf packs byType := by
  induction blobs generalizing byType with
  | nil =>
    cases h
    simp
  | cons blob blobs ih =>
    rw [storeAll] at h
    split at h
    · cases h
    · rename_i next hnext
      rw [ih h, contentOf_store hpack hnext, List.map_cons, ← cons_coe, add_cons, cons_add]

theorem inRange_storeAll {blobs : List Blob} {n : Nat} (hpack : packIndex < n)
    (hrange : ∀ t, ∀ e ∈ (byType t).entries, e.packIndex < n)
    (h : storeAll packIndex blobs byType = some byType') :
    ∀ t, ∀ e ∈ (byType' t).entries, e.packIndex < n := by
  induction blobs generalizing byType with
  | nil =>
    cases h
    exact hrange
  | cons blob blobs ih =>
    rw [storeAll] at h
    split at h
    · cases h
    · rename_i next hnext
      refine ih ?_ h
      unfold store at hnext
      split at hnext
      · cases hnext
      · cases hnext
        intro t e he
        by_cases ht : t = blob.type
        · subst ht
          rw [Function.update_self, (IndexMap.entries_add _ _).mem_iff, List.mem_cons] at he
          rcases he with rfl | he
          · exact hpack
          · exact hrange _ e he
        · rw [Function.update_of_ne ht] at he
          exact hrange t e he

end Store

/-- Panics on a final index. -/
def storePack (idx : Index) (id : ID) (blobs : List Blob) : Option Index :=
  if idx.final then none
  else
    match h : storeAll idx.packs.length blobs idx.byType with
    | none => none
    | some byType =>
      some
        { idx with
          byType := byType
          packs := idx.packs ++ [id]
          inRange := by
            refine inRange_storeAll (by simp) ?_ h
            intro t e he
            have := idx.inRange t e he
            simp
            omega }

variable {idx : Index} {blobs : List Blob}

theorem storePack_spec {idx' : Index} {id : ID} (h : idx.storePack id blobs = some idx') :
    idx'.content = (blobs.map (packed id) : Multiset PackedBlob) + idx.content ∧
      idx'.final = false := by
  unfold storePack at h
  split at h
  · cases h
  · rename_i hfinal
    split at h
    · cases h
    · rename_i byType hstore
      cases h
      refine ⟨?_, by simpa using hfinal⟩
      have hpack : (idx.packs ++ [id]).getD idx.packs.length .null = id := by simp
      have hcontent : contentOf (idx.packs ++ [id]) idx.byType = idx.content := by
        unfold content contentOf
        simp only [typed_append [id] (idx.inRange _)]
      exact (contentOf_storeAll hpack hstore).trans (by rw [hcontent])

theorem exists_storePack (hfinal : idx.final = false)
    (hfits : ∀ b ∈ blobs, b.offset ≤ maxuint32 ∧ b.length ≤ maxuint32) (id : ID) :
    ∃ idx', idx.storePack id blobs = some idx' := by
  have hstore : ∀ byType, ∃ byType', storeAll idx.packs.length blobs byType = some byType' := by
    induction blobs with
    | nil => exact fun byType => ⟨byType, rfl⟩
    | cons blob blobs ih =>
      intro byType
      obtain ⟨⟨hoffset, hlength⟩, hrest⟩ := List.forall_mem_cons.mp hfits
      rw [storeAll, store, if_neg (by omega)]
      exact ih hrest _
  obtain ⟨byType, hbyType⟩ := hstore idx.byType
  unfold storePack
  rw [if_neg (by simp [hfinal])]
  split
  · simp_all
  · exact ⟨_, rfl⟩

theorem fits_of_storePack {idx' : Index} {id : ID} (h : idx.storePack id blobs = some idx') :
    ∀ b ∈ blobs, b.offset ≤ maxuint32 ∧ b.length ≤ maxuint32 := by
  have hstore : ∀ byType byType', storeAll idx.packs.length blobs byType = some byType' →
        ∀ b ∈ blobs, b.offset ≤ maxuint32 ∧ b.length ≤ maxuint32 := by
    clear h
    induction blobs with
    | nil => nofun
    | cons blob blobs ih =>
      intro byType byType' h
      rw [storeAll] at h
      split at h
      · cases h
      · rename_i next hnext
        unfold store at hnext
        split at hnext
        · cases hnext
        · exact List.forall_mem_cons.mpr ⟨by omega, ih _ _ h⟩
  unfold storePack at h
  split at h
  · cases h
  · split at h
    · cases h
    · rename_i byType hbyType
      exact hstore _ _ hbyType

theorem storePack_eq_none {b : Blob} (hb : b ∈ blobs)
    (hoffset : maxuint32 < b.offset) (id : ID) : idx.storePack id blobs = none := by
  cases h : idx.storePack id blobs with
  | none => rfl
  | some idx' => exact absurd (fits_of_storePack h b hb).1 (Nat.not_le.mpr hoffset)

/-! ## Final indexes -/

def finalize (idx : Index) : Index := { idx with final := true }

@[simp] theorem content_finalize (idx : Index) : idx.finalize.content = idx.content := rfl

@[simp] theorem final_finalize (idx : Index) : idx.finalize.final := rfl

/-- An error on a final index. -/
def addToSupersedes (idx : Index) (ids : List ID) : Option Index :=
  if idx.final then none
  else some { idx with supersedes := idx.supersedes ++ ids }

def indexMaxBlobs : Nat := 50000

def indexMaxAge : Nat := 10 * 60

def indexFull (now : Nat) (idx : Index) : Bool :=
  indexMaxAge ≤ now - idx.created ||
    indexMaxBlobs ≤ (idx.byType .invalid).len + (idx.byType .data).len + (idx.byType .tree).len

/-! ## Queries -/

def has (idx : Index) (bh : BlobHandle) : Bool := ((idx.byType bh.type).get bh.id).isSome

def lookup (idx : Index) (bh : BlobHandle) : List PackedBlob :=
  ((idx.byType bh.type).foreachWithID bh.id).map (toPackedBlob idx.packs bh.type)

theorem lookup_eq (idx : Index) (bh : BlobHandle) : (idx.lookup bh : Multiset PackedBlob) =
      idx.content.filter (·.toBlobHandle = bh) := by
  ext pb
  rw [count_filter]
  have hmap : (idx.lookup bh : Multiset PackedBlob) =
      (typed idx.packs bh.type (idx.byType bh.type)).filter (·.id = bh.id) := by
    rw [lookup, IndexMap.foreachWithID_eq, typed, filter_map, filter_coe]
    rfl
  rw [hmap, count_filter]
  by_cases hpb : pb.toBlobHandle = bh
  · have hid : pb.id = bh.id := by rw [← hpb]
    have htype : pb.type = bh.type := by rw [← hpb]
    rw [if_pos hid, if_pos hpb, content, count_contentOf, htype]
  · rw [if_neg hpb]
    split
    · rename_i hid
      rw [count_eq_zero]
      intro hmem
      have htype := type_of_mem_typed hmem
      exact hpb (by cases bh; cases hid; cases htype; rfl)
    · rfl

theorem has_iff (idx : Index) (bh : BlobHandle) :
    idx.has bh ↔ ∃ pb ∈ idx.content, pb.toBlobHandle = bh := by
  rw [has, IndexMap.get_isSome]
  constructor
  · rintro ⟨e, he, hid⟩
    refine ⟨toPackedBlob idx.packs bh.type e, ?_, ?_⟩
    · rw [content, mem_contentOf]
      exact mem_map.mpr ⟨e, mem_coe.mpr he, rfl⟩
    · simp [toPackedBlob, hid]
  · rintro ⟨pb, hpb, rfl⟩
    rw [content, mem_contentOf] at hpb
    obtain ⟨e, he, hsame⟩ := mem_map.mp hpb
    refine ⟨e, by simpa using he, ?_⟩
    rw [← hsame]
    rfl

/-- The plaintext length wraps around where the entry is too short. -/
def lookupSize (idx : Index) (bh : BlobHandle) : Option Nat :=
  ((idx.byType bh.type).get bh.id).map fun e =>
    (((e.length : Int) - Crypto.extension) % 2 ^ 64).toNat

theorem isSome_lookupSize (idx : Index) (bh : BlobHandle) :
    (idx.lookupSize bh).isSome = idx.has bh := by
  simp [lookupSize, has]

/-! ## Merging -/

/-- `hasIdenticalEntry`, after the packs of the other index were appended. -/
def hasIdenticalEntry (packs packs2 : List ID) (t : BlobType) (m : IndexMap)
    (e2 : IndexEntry) : Bool :=
  (m.foreachWithID e2.id).any fun e =>
    let b := toPackedBlob packs t e
    let b2 := toPackedBlob packs2 t e2
    b.length = b2.length ∧ b.offset = b2.offset ∧ b.packID = b2.packID

def mergeEntries (packs packs2 : List ID) (packlen : Nat) (t : BlobType) :
    List IndexEntry → IndexMap → IndexMap
  | [], m => m
  | e2 :: rest, m =>
    mergeEntries packs packs2 packlen t rest (if hasIdenticalEntry packs packs2 t m e2 then m
      else m.add { e2 with packIndex := e2.packIndex + packlen })

section Merge

variable {packs packs2 : List ID} {t : BlobType}

theorem hasIdenticalEntry_iff {m : IndexMap} {e2 : IndexEntry} :
    hasIdenticalEntry packs packs2 t m e2 ↔ toPackedBlob packs2 t e2 ∈ typed packs t m := by
  rw [hasIdenticalEntry, IndexMap.foreachWithID_eq, List.any_eq_true]
  unfold typed
  rw [mem_map]
  constructor
  · rintro ⟨e, he, hsame⟩
    simp only [List.mem_filter, decide_eq_true_eq] at he hsame
    refine ⟨e, by simpa using he.1, ?_⟩
    simp only [toPackedBlob] at hsame ⊢
    rw [he.2, hsame.1, hsame.2.1, hsame.2.2]
  · rintro ⟨e, he, hsame⟩
    refine ⟨e, ?_, ?_⟩
    · have hid := congrArg PackedBlob.toBlob hsame
      simp only [toPackedBlob, Blob.mk.injEq, BlobHandle.mk.injEq] at hid
      exact List.mem_filter.mpr ⟨by simpa using he, by simpa using hid.1.1⟩
    · rw [hsame]
      simp

private theorem toPackedBlob_shift (e2 : IndexEntry) : toPackedBlob (packs ++ packs2) t
        { e2 with packIndex := e2.packIndex + packs.length } =
      toPackedBlob packs2 t e2 := by
  unfold toPackedBlob
  rw [List.getD_append_right _ _ _ _ (by simp)]
  simp

private theorem union_dedup_cons {s l : Multiset PackedBlob} {a : PackedBlob} :
    s ∪ (a ::ₘ l).dedup = if a ∈ s ∪ l.dedup then s ∪ l.dedup else a ::ₘ (s ∪ l.dedup) := by
  split
  · rename_i hmem
    ext pb
    rw [count_union, count_union, count_dedup, count_dedup]
    by_cases hpb : pb = a
    · subst hpb
      rw [mem_union, mem_dedup] at hmem
      by_cases hl : pb ∈ l
      · simp [hl]
      · have hs : 0 < s.count pb := count_pos.mpr (hmem.resolve_right hl)
        simp [hl]
        omega
    · simp [hpb]
  · rename_i hmem
    ext pb
    rw [mem_union, mem_dedup, not_or] at hmem
    by_cases hpb : pb = a
    · subst hpb
      rw [count_cons_self, count_union, count_union, count_dedup, count_dedup]
      simp [hmem.2, count_eq_zero.mpr hmem.1]
    · rw [count_cons_of_ne hpb, count_union, count_union, count_dedup, count_dedup]
      simp [hpb]

private theorem typed_mergeEntries (es2 : List IndexEntry) (m : IndexMap)
    (done : Multiset PackedBlob) {base : Multiset PackedBlob}
    (h : typed (packs ++ packs2) t m = base ∪ done.dedup) : typed (packs ++ packs2) t
        (mergeEntries (packs ++ packs2) packs2 packs.length t es2 m) =
      base ∪ (((es2 : Multiset IndexEntry).map (toPackedBlob packs2 t)) + done).dedup := by
  induction es2 generalizing m done with
  | nil => simpa [mergeEntries] using h
  | cons e2 es2 ih =>
    have hstep : typed (packs ++ packs2) t
        (if hasIdenticalEntry (packs ++ packs2) packs2 t m e2 then m
          else m.add { e2 with packIndex := e2.packIndex + packs.length }) =
        base ∪ (toPackedBlob packs2 t e2 ::ₘ done).dedup := by
      rw [union_dedup_cons, ← h]
      by_cases hsame : hasIdenticalEntry (packs ++ packs2) packs2 t m e2
      · rw [if_pos hsame, if_pos (hasIdenticalEntry_iff.mp hsame)]
      · rw [if_neg hsame, typed_add, toPackedBlob_shift,
          if_neg (fun hmem => hsame (hasIdenticalEntry_iff.mpr hmem))]
    rw [mergeEntries, ih _ _ hstep]
    congr 2
    rw [← cons_coe, map_cons, cons_add, add_cons]

private theorem inRange_mergeEntries {n packlen : Nat} (es2 : List IndexEntry) (m : IndexMap)
    (hpacks2 : ∀ e ∈ es2, e.packIndex + packlen < n) (h : ∀ e ∈ m.entries, e.packIndex < n) :
    ∀ e ∈ (mergeEntries packs packs2 packlen t es2 m).entries, e.packIndex < n := by
  induction es2 generalizing m with
  | nil => exact h
  | cons e2 es2 ih =>
    refine ih _ (fun e he => hpacks2 e (by simp [he])) ?_
    split
    · exact h
    · intro e he
      rw [(IndexMap.entries_add _ _).mem_iff, List.mem_cons] at he
      rcases he with rfl | he
      · exact hpacks2 e2 (by simp)
      · exact h e he

end Merge

inductive MergeError
  | notFinal

/-- Exact duplicates are left out. -/
def merge (idx idx2 : Index) : Except MergeError Index :=
  if idx2.final then
    .ok
      { idx with
        packs := idx.packs ++ idx2.packs
        byType := fun t =>
          mergeEntries (idx.packs ++ idx2.packs) idx2.packs idx.packs.length t
            (idx2.byType t).entries (idx.byType t)
        mixedPacks := idx.mixedPacks ++ idx2.mixedPacks
        ids := idx.ids ++ idx2.ids
        supersedes := idx.supersedes ++ idx2.supersedes
        inRange := by
          intro t
          refine inRange_mergeEntries _ _ ?_ ?_
          · intro e he
            have := idx2.inRange t e he
            simp
            omega
          · intro e he
            have := idx.inRange t e he
            simp
            omega }
  else .error .notFinal

theorem merge_spec (idx : Index) {idx2 : Index} (hfinal : idx2.final) :
    ∃ idx', idx.merge idx2 = .ok idx' ∧ idx'.final = idx.final ∧
      idx'.content = idx.content ∪ idx2.content.dedup := by
  unfold merge
  rw [if_pos hfinal]
  refine ⟨_, rfl, rfl, ?_⟩
  ext pb
  have htyped : ∀ t, typed (idx.packs ++ idx2.packs) t
      (mergeEntries (idx.packs ++ idx2.packs) idx2.packs idx.packs.length t
        (idx2.byType t).entries (idx.byType t)) = typed idx.packs t (idx.byType t) ∪
        (typed idx2.packs t (idx2.byType t)).dedup := by
    intro t
    rw [typed_mergeEntries (idx2.byType t).entries (idx.byType t) 0
      (by simp [typed_append idx2.packs (idx.inRange t)]; rfl)]
    rw [add_zero]
    rfl
  rw [count_union, count_dedup]
  simp only [content, count_contentOf, htyped, count_union, count_dedup, mem_contentOf]

/-! ## Index files -/

def each (idx : Index) : List PackedBlob :=
  [BlobType.invalid, .data, .tree].flatMap fun t =>
    (idx.byType t).entries.map (toPackedBlob idx.packs t)

theorem coe_each (idx : Index) : (idx.each : Multiset PackedBlob) = idx.content := by
  simp [each, content, contentOf, typed, ← coe_add, add_assoc]

end Index

structure PackJSON where
  id : ID
  blobs : List Blob

structure JsonIndex where
  supersedes : List ID
  packs : List PackJSON

def addToPackList : List PackJSON → PackedBlob → List PackJSON
  | [], pb => [⟨pb.packID, [pb.toBlob]⟩]
  | pack :: rest, pb =>
    if pack.id = pb.packID then ⟨pack.id, pack.blobs ++ [pb.toBlob]⟩ :: rest
    else pack :: addToPackList rest pb

namespace Index

/-- Panics on a null pack ID. -/
def generatePackList (idx : Index) : Option (List PackJSON) :=
  if idx.each.any (·.packID.isNull) then none
  else some (idx.each.foldl addToPackList [])

/-- The content of the index file, before it is serialized and encrypted. -/
def encode (idx : Index) : Option JsonIndex :=
  idx.generatePackList.map fun packs => ⟨idx.supersedes, packs⟩

end Index

def listedIn (packs : List PackJSON) : Multiset PackedBlob :=
  (packs.flatMap fun pack => pack.blobs.map (Index.packed pack.id) : List PackedBlob)

def JsonIndex.listed (file : JsonIndex) : Multiset PackedBlob := listedIn file.packs

theorem listedIn_append (packs more : List PackJSON) :
    listedIn (packs ++ more) = listedIn packs + listedIn more := by
  simp [listedIn, ← coe_add]

private theorem listedIn_add (packs : List PackJSON) (pb : PackedBlob) :
    listedIn (addToPackList packs pb) = pb ::ₘ listedIn packs := by
  induction packs with
  | nil => simp [addToPackList, listedIn, Index.packed]
  | cons pack packs ih =>
    rw [addToPackList]
    split
    · rename_i hid
      simp [listedIn, Index.packed, hid]
    · have hcons : ∀ packs, listedIn (pack :: packs) =
          (pack.blobs.map (Index.packed pack.id) : Multiset PackedBlob) +
            listedIn packs := fun _ => rfl
      rw [hcons, hcons, ih, add_cons]

theorem listedIn_foldl (pbs : List PackedBlob) (packs : List PackJSON) :
    listedIn (pbs.foldl addToPackList packs) = (pbs : Multiset PackedBlob) + listedIn packs := by
  induction pbs generalizing packs with
  | nil => simp
  | cons pb pbs ih => rw [List.foldl_cons, ih, listedIn_add, ← cons_coe, add_cons, cons_add]

theorem Index.listed_encode {idx : Index} {file : JsonIndex}
    (h : idx.encode = some file) : file.listed = idx.content := by
  obtain ⟨packs, hpacks, rfl⟩ := Option.map_eq_some_iff.mp h
  unfold generatePackList at hpacks
  split at hpacks
  · cases hpacks
  · cases hpacks
    rw [JsonIndex.listed, listedIn_foldl, ← coe_each]
    simp [listedIn]

end Rapi.Repository
