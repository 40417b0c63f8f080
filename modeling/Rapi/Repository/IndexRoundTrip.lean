import Rapi.Repository.LoadIndex

/-!
# Index files that are read back

An index is built by `Store` and `StorePack`.  `Store` remembers the position of
each pack that it has seen, `StorePack` adds a new position for its pack; an
index file lists the blobs of a pack in one place either way.  JSON is a
parameter that gives back what it was given.
-/

namespace Rapi.Repository

open Foundation Restic List Index

/-! ## Building an index -/

namespace Index

def addToPacks (idx : Index) (id : ID) : Index :=
  { idx with
    packs := idx.packs ++ [id]
    inRange := by
      intro t e he
      have hrange := idx.inRange t e he
      rw [List.length_append]
      omega }

/-- There is no entry for a position that does not exist. -/
def storeAt (idx : Index) (packIndex : Nat) (blob : Blob) : Option Index :=
  if hpack : packIndex < idx.packs.length then
    match h : storeAll packIndex [blob] idx.byType with
    | none => none
    | some byType =>
      some
        { idx with
          byType := byType
          inRange := inRange_storeAll hpack idx.inRange h }
  else none

theorem content_addToPacks (idx : Index) (id : ID) : (idx.addToPacks id).content = idx.content := by
  simp only [content, contentOf, addToPacks, typed_append [id] (idx.inRange _)]

theorem storeAt_spec {idx idx' : Index} {packIndex : Nat} {packID : ID} {blob : Blob}
    (hpack : idx.packs[packIndex]? = some packID) (h : idx.storeAt packIndex blob = some idx') :
    idx'.content = packed packID blob ::ₘ idx.content ∧
      idx'.packs = idx.packs ∧ idx'.final = idx.final ∧
      idx'.supersedes = idx.supersedes := by
  unfold storeAt at h
  split at h
  · split at h
    · cases h
    · rename_i byType hstore
      cases h
      refine ⟨?_, rfl, rfl, rfl⟩
      have hget : idx.packs.getD packIndex .null = packID := by simp [getD_eq_getElem?_getD, hpack]
      exact contentOf_storeAll hget hstore
  · cases h

theorem storePack_fields {idx idx' : Index} {id : ID} {blobs : List Blob}
    (h : idx.storePack id blobs = some idx') :
    idx'.packs = idx.packs ++ [id] ∧ idx'.supersedes = idx.supersedes := by
  unfold storePack at h
  split at h
  · cases h
  · split at h
    · cases h
    · cases h
      exact ⟨rfl, rfl⟩

end Index

/-- An index with the map that only `Store` uses. -/
structure OpenIndex where
  index : Index
  packIDToIndex : ID → Option Nat

namespace OpenIndex

def new (seed : BlobType → ID → Nat) (now : Nat) : OpenIndex where
  index := .new seed now
  packIDToIndex _ := none

/-- Panics on a final index. -/
def store (o : OpenIndex) (pb : PackedBlob) : Option OpenIndex :=
  if o.index.final then none
  else
    match o.packIDToIndex pb.packID with
    | some packIndex => (o.index.storeAt packIndex pb.toBlob).map fun idx => { o with index := idx }
    | none =>
      let packIndex := o.index.packs.length
      ((o.index.addToPacks pb.packID).storeAt packIndex pb.toBlob).map fun idx =>
        ⟨idx, Function.update o.packIDToIndex pb.packID (some packIndex)⟩

inductive Edit
  | store (pb : PackedBlob)
  | storePack (id : ID) (blobs : List Blob)
  | addToSupersedes (ids : List ID)

def step (o : OpenIndex) : Edit → Option OpenIndex
  | .store pb => o.store pb
  | .storePack id blobs => (o.index.storePack id blobs).map fun idx => { o with index := idx }
  | .addToSupersedes ids => (o.index.addToSupersedes ids).map fun idx => { o with index := idx }

def Edit.entries : Edit → List PackedBlob
  | .store pb => [pb]
  | .storePack id blobs => blobs.map (Index.packed id)
  | .addToSupersedes _ => []

/-- An entry that can be written to an index file. -/
structure Fits (pb : PackedBlob) : Prop where
  packID : pb.packID.isNull = false
  type : pb.type ≠ .invalid
  offset : pb.offset ≤ Index.maxuint32
  length : pb.length ≤ Index.maxuint32

/-- The map knows where packs are, and the index has entries of the given kind. -/
structure Sound (o : OpenIndex) : Prop where
  known : ∀ id i, o.packIDToIndex id = some i → o.index.packs[i]? = some id
  fits : ∀ pb ∈ o.index.content, Fits pb

theorem known_append {packs : List ID} {id : ID} {i : Nat}
    (h : packs[i]? = some id) (more : List ID) : (packs ++ more)[i]? = some id := by
  rw [List.getElem?_append_left (List.getElem?_eq_some_iff.mp h).1, h]

variable {o : OpenIndex}

/-- Wherever the pack was registered, the entry refers to it. -/
theorem store_spec {o' : OpenIndex} {pb : PackedBlob}
    (hknown : ∀ id i, o.packIDToIndex id = some i → o.index.packs[i]? = some id)
    (h : o.store pb = some o') :
    (∀ id i, o'.packIDToIndex id = some i → o'.index.packs[i]? = some id) ∧
      o'.index.content = pb ::ₘ o.index.content ∧
      (∀ id, id ∈ o'.index.packs ↔ id = pb.packID ∨ id ∈ o.index.packs) ∧
      o'.index.final = o.index.final := by
  unfold store at h
  split at h
  · cases h
  · split at h
    · rename_i packIndex hpos
      obtain ⟨idx, hidx, rfl⟩ := Option.map_eq_some_iff.mp h
      obtain ⟨hcontent, hpacks, hfinal, -⟩ := storeAt_spec (hknown _ _ hpos) hidx
      have hmem : pb.packID ∈ o.index.packs := mem_of_getElem? (hknown _ _ hpos)
      refine ⟨?_, hcontent, ?_, hfinal⟩
      · intro id i hi
        rw [hpacks]
        exact hknown id i hi
      · intro id
        rw [hpacks, iff_or_self]
        rintro rfl
        exact hmem
    · rename_i hpos
      obtain ⟨idx, hidx, rfl⟩ := Option.map_eq_some_iff.mp h
      have hlast : (o.index.addToPacks pb.packID).packs[o.index.packs.length]? =
          some pb.packID := by simp [addToPacks]
      obtain ⟨hcontent, hpacks, hfinal, -⟩ := storeAt_spec hlast hidx
      refine ⟨?_, ?_, ?_, hfinal⟩
      · intro id i hi
        simp only at hi
        rw [hpacks]
        by_cases hid : id = pb.packID
        · subst hid
          rw [Function.update_self, Option.some.injEq] at hi
          rw [← hi, hlast]
        · rw [Function.update_of_ne hid] at hi
          exact known_append (hknown id i hi) _
      · rw [hcontent, content_addToPacks]
        rfl
      · intro id
        rw [hpacks, addToPacks, mem_append, mem_singleton, or_comm]

theorem Sound.step {o' : OpenIndex} {edit : Edit} (ho : o.Sound)
    (hfits : ∀ pb ∈ edit.entries, Fits pb) (h : o.step edit = some o') : o'.Sound := by
  cases edit with
  | store pb =>
    obtain ⟨hknown, hcontent, -⟩ := store_spec ho.known h
    refine ⟨hknown, ?_⟩
    rw [hcontent]
    exact Multiset.forall_mem_cons.mpr ⟨hfits pb mem_cons_self, ho.fits⟩
  | storePack id blobs =>
    obtain ⟨idx, hidx, rfl⟩ := Option.map_eq_some_iff.mp h
    obtain ⟨hcontent, -⟩ := storePack_spec hidx
    obtain ⟨hpacks, -⟩ := storePack_fields hidx
    constructor
    · intro id' i hi
      rw [hpacks]
      exact known_append (ho.known id' i hi) _
    · intro pb hpb
      rw [hcontent, Multiset.mem_add] at hpb
      rcases hpb with hpb | hpb
      · exact hfits pb hpb
      · exact ho.fits pb hpb
  | addToSupersedes ids =>
    obtain ⟨idx, hidx, rfl⟩ := Option.map_eq_some_iff.mp h
    unfold addToSupersedes at hidx
    split at hidx <;> cases hidx
    exact ⟨ho.known, ho.fits⟩

/-- The index was built from entries that can be written. -/
def Built (o : OpenIndex) : Prop :=
  ∃ seed now, Reaches step (fun _ edit => ∀ pb ∈ Edit.entries edit, Fits pb) (new seed now) o

theorem Built.sound (ho : o.Built) : o.Sound := by
  obtain ⟨seed, now, hreach⟩ := ho
  refine hreach.invariant _ ⟨nofun, nofun⟩ ?_
  exact fun _ _ _ hs hfits hstep => hs.step hfits hstep

end OpenIndex

/-! ## Packs in an index file -/

namespace PackJSON

def mixed (pack : PackJSON) : Bool :=
  pack.blobs.any (·.type = .data) && pack.blobs.any (·.type = .tree)

end PackJSON

theorem ids_addToPackList (packs : List PackJSON) (pb : PackedBlob) :
    (addToPackList packs pb).map PackJSON.id =
      if pb.packID ∈ packs.map PackJSON.id then packs.map PackJSON.id
      else packs.map PackJSON.id ++ [pb.packID] := by
  induction packs with
  | nil => rfl
  | cons pack packs ih =>
    rw [addToPackList]
    by_cases hid : pack.id = pb.packID
    · simp [hid]
    · rw [if_neg hid, map_cons, ih]
      simp only [map_cons, mem_cons, Ne.symm hid, false_or]
      split <;> rfl

variable {packs : List PackJSON}

theorem nodup_ids_foldl (pbs : List PackedBlob) (hpacks : (packs.map PackJSON.id).Nodup) :
    ((pbs.foldl addToPackList packs).map PackJSON.id).Nodup := by
  induction pbs generalizing packs with
  | nil => exact hpacks
  | cons pb pbs ih =>
    refine ih ?_
    rw [ids_addToPackList]
    split
    · exact hpacks
    · rename_i hnew
      refine nodup_append.mpr ⟨hpacks, nodup_singleton _, ?_⟩
      rintro id hid _ hlast rfl
      rw [mem_singleton.mp hlast] at hid
      exact hnew hid

theorem mem_listedIn {pb : PackedBlob} : pb ∈ listedIn packs ↔ ∃ pack ∈ packs, ∃ blob ∈ pack.blobs,
      Index.packed pack.id blob = pb := by
  simp [listedIn]

def HasBoth (entries : Multiset PackedBlob) (p : ID) : Prop :=
  (∃ pb ∈ entries, pb.packID = p ∧ pb.type = .data) ∧
    ∃ pb ∈ entries, pb.packID = p ∧ pb.type = .tree

theorem hasBoth_of_mixed {pack : PackJSON} (hpack : pack ∈ packs)
    (hmixed : pack.mixed) : HasBoth (listedIn packs) pack.id := by
  simp only [PackJSON.mixed, Bool.and_eq_true, any_eq_true, decide_eq_true_eq] at hmixed
  obtain ⟨⟨data, hdata, hdataType⟩, tree, htree, htreeType⟩ := hmixed
  exact ⟨⟨_, mem_listedIn.mpr ⟨pack, hpack, data, hdata, rfl⟩, rfl, hdataType⟩,
    ⟨_, mem_listedIn.mpr ⟨pack, hpack, tree, htree, rfl⟩, rfl, htreeType⟩⟩

theorem mixed_of_hasBoth {p : ID} (hnodup : (packs.map PackJSON.id).Nodup)
    (hboth : HasBoth (listedIn packs) p) : ∃ pack ∈ packs, pack.id = p ∧ pack.mixed := by
  obtain ⟨⟨data, hdata, hdataPack, hdataType⟩, tree, htree, htreePack, htreeType⟩ := hboth
  obtain ⟨pack, hpack, blob, hblob, rfl⟩ := mem_listedIn.mp hdata
  obtain ⟨other, hother, blob', hblob', rfl⟩ := mem_listedIn.mp htree
  have hsame : other = pack :=
    inj_on_of_nodup_map hnodup hother hpack (htreePack.trans hdataPack.symm)
  subst hsame
  refine ⟨other, hpack, hdataPack, ?_⟩
  simp only [PackJSON.mixed, Bool.and_eq_true, any_eq_true, decide_eq_true_eq]
  exact ⟨⟨blob, hblob, hdataType⟩, blob', hblob', htreeType⟩

namespace Index

variable {idx : Index} {p : ID}

theorem mixedPacks_storePack {idx' : Index} {id : ID} {blobs : List Blob}
    (h : idx.storePack id blobs = some idx') : idx'.mixedPacks = idx.mixedPacks := by
  unfold storePack at h
  split at h
  · cases h
  · split at h
    · cases h
    · cases h
      rfl

theorem mem_mixedPacks_decodePack {pack : PackJSON} {next : Index}
    (h : idx.decodePack pack = some next) :
    p ∈ next.mixedPacks ↔ p ∈ idx.mixedPacks ∨ pack.id = p ∧ pack.mixed := by
  obtain ⟨stored, hstored, rfl⟩ := Option.map_eq_some_iff.mp h
  have hsame := mixedPacks_storePack hstored
  split
  · rename_i hmixed
    have hpack : pack.mixed := hmixed
    rw [mem_append, hsame, mem_singleton, hpack, eq_comm]
    simp
  · rename_i hmixed
    have hpack : ¬ pack.mixed := hmixed
    rw [hsame]
    simp [hpack]

theorem mem_mixedPacks_decodePacks {packs : List PackJSON} {idx' : Index}
    (h : decodePacks packs idx = some idx') : p ∈ idx'.mixedPacks ↔
      p ∈ idx.mixedPacks ∨ ∃ pack ∈ packs, pack.id = p ∧ pack.mixed := by
  induction packs generalizing idx with
  | nil =>
    cases h
    simp
  | cons pack packs ih =>
    rw [decodePacks] at h
    split at h
    · cases h
    · rename_i next hnext
      rw [ih h, mem_mixedPacks_decodePack hnext, or_assoc]
      simp only [mem_cons, exists_eq_or_imp]

theorem mem_mixedPacks_decode {seed : BlobType → ID → Nat} {now : Nat} {id : ID}
    {file : JsonIndex} (h : decode (.new seed now) id (.current file) = some idx) :
    p ∈ idx.mixedPacks ↔ ∃ pack ∈ file.packs, pack.id = p ∧ pack.mixed := by
  obtain ⟨decoded, hdecoded, rfl⟩ := Option.map_eq_some_iff.mp h
  exact (mem_mixedPacks_decodePacks hdecoded).trans (or_iff_right nofun)

def listPack (idx : Index) (id : ID) : List PackedBlob :=
  [BlobType.invalid, .data, .tree].flatMap fun t =>
    ((idx.byType t).entries.filter fun e =>
      idx.packs.getD e.packIndex .null = id).map (toPackedBlob idx.packs t)

theorem listPack_eq (idx : Index) (id : ID) :
    (idx.listPack id : Multiset PackedBlob) = idx.content.filter (·.packID = id) := by
  rw [← coe_each, Multiset.filter_coe, each, listPack]
  simp only [filter_flatMap, filter_map]
  rfl

end Index

/-! ## Decoding what was encoded -/

inductive UnmarshalError
  /-- The text is an array, as in the old format. -/
  | array
  | other

/-- `τ` are the texts. -/
structure IndexJSON (τ : Type) where
  marshal : JsonIndex → τ
  unmarshal : τ → Except UnmarshalError JsonIndex
  unmarshalOld : τ → Option (List PackJSON)
  /-- There is no text for an invalid blob type. -/
  roundTrip : ∀ file : JsonIndex, (∀ pack ∈ file.packs, ∀ blob ∈ pack.blobs, blob.type ≠ .invalid) →
      unmarshal (marshal file) = .ok file

/-- The index, and whether the file has the old format. -/
def decodeIndex {τ : Type} (json : IndexJSON τ) (newIndex : Index) (buf : τ)
    (id : ID) : Option (Index × Bool) :=
  match json.unmarshal buf with
  | .ok file => (Index.decode newIndex id (.current file)).map (·, false)
  | .error .array =>
    match json.unmarshalOld buf with
    | none => none
    | some packs => (Index.decode newIndex id (.old packs)).map (·, true)
  | .error .other => none

theorem Index.encode_eq {idx : Index} (hnull : ∀ pb ∈ idx.content, pb.packID.isNull = false) :
    idx.encode = some ⟨idx.supersedes, idx.each.foldl addToPackList []⟩ := by
  have hany : ¬ idx.each.any (·.packID.isNull) := by
    rw [any_eq_true]
    rintro ⟨pb, hpb, hisNull⟩
    rw [← Multiset.mem_coe, coe_each] at hpb
    rw [hnull pb hpb] at hisNull
    cases hisNull
  rw [encode, generatePackList, if_neg hany]
  rfl

/-- An index is read back from its file as it was. -/
theorem decodeIndex_encode {τ : Type} (json : IndexJSON τ) {o : OpenIndex}
    (ho : o.Built) (seed : BlobType → ID → Nat) (now : Nat) (id : ID) :
    ∃ file idx, o.index.encode = some file ∧
      (file.packs.map PackJSON.id).Nodup ∧
      decodeIndex json (.new seed now) (json.marshal file) id = some (idx, false) ∧
      idx.final ∧ idx.ids = [id] ∧ idx.supersedes = o.index.supersedes ∧
      (idx.each : Multiset PackedBlob) = o.index.each ∧
      (∀ bh, (idx.lookup bh : Multiset PackedBlob) = o.index.lookup bh) ∧
      (∀ p, (idx.listPack p : Multiset PackedBlob) = o.index.listPack p) ∧
      ∀ p, p ∈ idx.mixedPacks ↔ HasBoth idx.each p := by
  have hfits := ho.sound.fits
  have hencode := encode_eq fun pb hpb => (hfits pb hpb).packID
  have hlisted := listed_encode hencode
  have hnodup : ((o.index.each.foldl addToPackList []).map PackJSON.id).Nodup :=
    nodup_ids_foldl o.index.each nodup_nil
  set file : JsonIndex := ⟨o.index.supersedes, o.index.each.foldl addToPackList []⟩
  have htypes : ∀ pack ∈ file.packs, ∀ blob ∈ pack.blobs, blob.type ≠ .invalid := by
    intro pack hpack blob hblob
    have hpb : packed pack.id blob ∈ file.listed := mem_listedIn.mpr ⟨pack, hpack, blob, hblob, rfl⟩
    rw [hlisted] at hpb
    exact (hfits _ hpb).type
  have hrange : ∀ pb ∈ (IndexFile.current file).listed,
      pb.offset ≤ maxuint32 ∧ pb.length ≤ maxuint32 := by
    intro pb hpb
    have hcontent : pb ∈ o.index.content := hlisted ▸ hpb
    exact ⟨(hfits pb hcontent).offset, (hfits pb hcontent).length⟩
  obtain ⟨idx, hidx⟩ := exists_decode (rfl : (new seed now).final = false) id hrange
  obtain ⟨hfinal, hcontent, hids⟩ := decode_spec hidx
  have hsame : idx.content = o.index.content := hcontent.trans hlisted
  refine ⟨file, idx, hencode, hnodup, ?_, hfinal, hids, ?_, ?_, ?_, ?_, ?_⟩
  · simp [decodeIndex, json.roundTrip file htypes, hidx]
  · obtain ⟨decoded, -, rfl⟩ := Option.map_eq_some_iff.mp hidx
    rfl
  · rw [coe_each, coe_each, hsame]
  · intro bh
    rw [lookup_eq, lookup_eq, hsame]
  · intro p
    rw [listPack_eq, listPack_eq, hsame]
  · intro p
    rw [mem_mixedPacks_decode hidx, coe_each, hcontent]
    constructor
    · rintro ⟨pack, hpack, rfl, hmixed⟩
      exact hasBoth_of_mixed hpack hmixed
    · exact mixed_of_hasBoth hnodup

def sampleJSON : IndexJSON JsonIndex where
  marshal := id
  unmarshal := .ok
  unmarshalOld _ := none
  roundTrip _ _ := rfl

def sampleMixedEdits : List OpenIndex.Edit :=
  [.storePack (.ofNat 2) [⟨⟨.ofNat 1, .data⟩, 40, 0⟩], .addToSupersedes [.ofNat 4],
    .store ⟨⟨⟨.ofNat 3, .tree⟩, 50, 40⟩, .ofNat 2⟩]

theorem decodeIndex_encode_sample :
    ∃ o file idx, run OpenIndex.step (.new (fun _ _ => 0) 0) sampleMixedEdits =
        some o ∧ o.index.encode = some file ∧
      decodeIndex sampleJSON (.new (fun _ _ => 0) 0) file (.ofNat 9) =
        some (idx, false) ∧
      (idx.each : Multiset PackedBlob) = o.index.each := by
  obtain ⟨o, hrun⟩ : ∃ o, run OpenIndex.step (.new (fun _ _ => 0) 0)
      sampleMixedEdits = some o := ⟨_, rfl⟩
  have hfits : ∀ edit ∈ sampleMixedEdits, ∀ pb ∈ edit.entries,
      OpenIndex.Fits pb := by
    have hentries : ∀ pb ∈ sampleMixedEdits.flatMap OpenIndex.Edit.entries,
        pb.packID.isNull = false ∧ pb.type ≠ .invalid ∧
          pb.offset ≤ maxuint32 ∧ pb.length ≤ maxuint32 := by decide
    intro edit hedit pb hpb
    obtain ⟨hpack, htype, hoffset, hlength⟩ := hentries pb (mem_flatMap.mpr ⟨edit, hedit, hpb⟩)
    exact ⟨hpack, htype, hoffset, hlength⟩
  have hbuilt : o.Built := ⟨_, _, reaches_of_run OpenIndex.step .refl (fun _ => hfits) hrun⟩
  obtain ⟨file, idx, hencode, -, hdecode, -, -, -, heach, -⟩ :=
    decodeIndex_encode sampleJSON hbuilt (fun _ _ => 0) 0 (.ofNat 9)
  exact ⟨o, file, idx, hrun, hencode, hdecode, heach⟩

end Rapi.Repository
