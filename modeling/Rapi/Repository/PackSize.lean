import Rapi.Pack.Reader
import Rapi.Repository.LoadIndex

/-!
# Pack sizes

The index does not store how long the pack files are.  `PackSize` computes it
from the entries, which arrive in any order.  This gives the size of the file as
long as each entry is in the index once, however it got there.
-/

namespace Rapi.Repository

open Foundation Crypto Restic Pack Multiset Index

/-! ## Accumulating in a map -/

section Accumulate

variable {α κ β : Type} [DecidableEq κ] (key : α → κ) (f : Option β → α → β)

/-- For each element, the value under its key is computed anew. -/
def accumulate (xs : List α) (m : AList fun _ : κ => β) : AList fun _ : κ => β :=
  xs.foldl (fun m x => m.insert (key x) (f (m.lookup (key x)) x)) m

theorem lookup_accumulate (xs : List α) (m : AList fun _ : κ => β) (k : κ) :
    (accumulate key f xs m).lookup k =
      (xs.filter (key · = k)).foldl (fun v x => some (f v x)) (m.lookup k) := by
  induction xs generalizing m with
  | nil => rfl
  | cons x xs ih =>
    rw [accumulate, List.foldl_cons]
    change (accumulate key f xs _).lookup k = _
    rw [ih]
    by_cases hkey : key x = k
    · subst hkey
      rw [AList.lookup_insert, List.filter_cons_of_pos (by simp), List.foldl_cons]
    · rw [AList.lookup_insert_ne (Ne.symm hkey), List.filter_cons_of_neg (by simpa using hkey)]

end Accumulate

namespace MasterIndex

/-- One step of `PackSize`: what is known of the pack, and an entry of it. -/
def addSize (onlyHdr : Bool) (size : Option Nat) (blob : PackedBlob) : Nat :=
  let size := size.getD headerSize
  let size := if onlyHdr then size else size + blob.length
  size + entrySize

def packSize (mi : MasterIndex) (onlyHdr : Bool) : AList fun _ : ID => Nat :=
  accumulate PackedBlob.packID (addSize onlyHdr) mi.each ∅

theorem foldl_addSize (onlyHdr : Bool) (blobs : List PackedBlob) (size : Nat) :
    blobs.foldl (fun size blob => some (addSize onlyHdr size blob)) (some size) = some (size +
        (if onlyHdr then 0 else (blobs.map (·.length)).sum) + blobs.length * entrySize) := by
  induction blobs generalizing size with
  | nil => simp
  | cons blob blobs ih =>
    rw [List.foldl_cons, ih]
    cases onlyHdr <;> simp [addSize] <;> ring

def entriesOf (mi : MasterIndex) (id : ID) : Multiset PackedBlob :=
  mi.content.filter (·.packID = id)

theorem lookup_packSize (mi : MasterIndex) (onlyHdr : Bool) (id : ID) :
    (mi.packSize onlyHdr).lookup id = if mi.entriesOf id = 0 then none
      else some (headerSize + (if onlyHdr then 0 else ((mi.entriesOf id).map (·.length)).sum) +
        (mi.entriesOf id).card * entrySize) := by
  have hentries : mi.entriesOf id = (mi.each.filter (·.packID = id) : List PackedBlob) := by
    rw [entriesOf, ← filter_coe, coe_each]
  rw [packSize, lookup_accumulate, hentries]
  cases mi.each.filter (·.packID = id) with
  | nil => rfl
  | cons blob blobs =>
    -- a pack without a size yet counts as one with an empty header
    have hfirst : (blob :: blobs).foldl (fun size blob => some (addSize onlyHdr size blob)) none =
        (blob :: blobs).foldl (fun size blob => some (addSize onlyHdr size blob))
          (some headerSize) := rfl
    rw [AList.lookup_empty, hfirst, foldl_addSize]
    simp

end MasterIndex

/-! ## Packs and their entries -/

/-- A pack that was written with a packer, and the ID it is stored under. -/
structure WrittenPack (k : Key) where
  id : ID
  packer : Packer
  filled : packer.Filled
  nonempty : packer.blobs ≠ []
  nonce : Nonce
  /-- The packer after `Finalize`, which has returned `size`. -/
  finalized : Packer
  size : Nat
  finalize_eq : packer.finalize k nonce none none = (finalized, .ok size)

namespace WrittenPack

variable {k : Key} (pack : WrittenPack k)

def blobs : List Blob := pack.packer.blobs

def file : Bytes := pack.finalized.wr

def entries : Multiset PackedBlob := (pack.blobs.map (Index.packed pack.id) : List _)

def allEntries (packs : List (WrittenPack k)) : Multiset PackedBlob := (packs.map entries).sum

theorem packID_of_mem_entries {pb : PackedBlob} (h : pb ∈ pack.entries) : pb.packID = pack.id := by
  obtain ⟨blob, -, rfl⟩ := List.mem_map.mp h
  rfl

variable {packs : List (WrittenPack k)}

theorem mem_allEntries {pb : PackedBlob} :
    pb ∈ allEntries packs ↔ ∃ pack ∈ packs, pb ∈ pack.entries := mem_sum_map

theorem filter_allEntries_of_notMem {id : ID} (hid : id ∉ packs.map WrittenPack.id) :
    (allEntries packs).filter (·.packID = id) = 0 := by
  rw [filter_eq_nil]
  intro pb hpb hpack
  obtain ⟨pack, hmem, hentry⟩ := mem_allEntries.mp hpb
  rw [packID_of_mem_entries pack hentry] at hpack
  exact hid (hpack ▸ List.mem_map_of_mem hmem)

theorem filter_allEntries (hdistinct : (packs.map WrittenPack.id).Nodup) {pack : WrittenPack k}
    (hpack : pack ∈ packs) : (allEntries packs).filter (·.packID = pack.id) = pack.entries := by
  induction packs with
  | nil => cases hpack
  | cons first packs ih =>
    obtain ⟨hfirst, hrest⟩ := List.nodup_cons.mp hdistinct
    have hall : allEntries (first :: packs) = first.entries + allEntries packs := rfl
    rw [hall, filter_add]
    rcases List.mem_cons.mp hpack with rfl | hpack
    · rw [filter_allEntries_of_notMem hfirst, add_zero, filter_eq_self]
      exact fun pb => pack.packID_of_mem_entries
    · have hne : first.id ≠ pack.id :=
        fun heq => hfirst (heq ▸ List.mem_map_of_mem hpack)
      rw [ih hrest hpack, filter_eq_nil.mpr, zero_add]
      exact fun pb hpb heq => hne (first.packID_of_mem_entries hpb ▸ heq)

theorem size_eq : pack.file.length = pack.size ∧ pack.size = headerSize +
      (pack.entries.map (·.length)).sum + pack.entries.card * entrySize := by
  have hsum : (pack.entries.map (·.length)).sum = (pack.packer.blobs.map Blob.length).sum := by
    simp [entries, blobs, Function.comp_def, Index.packed]
  have hcard : pack.entries.card = pack.packer.blobs.length := by simp [entries, blobs]
  rw [hsum, hcard]
  exact pack.filled.finalize_ok pack.finalize_eq

theorem isPack : IsPack k pack.blobs pack.packer.wr pack.file :=
  (Packer.finalize_ok pack.finalize_eq).1

theorem entries_ne_zero : pack.entries ≠ 0 := by
  intro hzero
  have hcard := congrArg card hzero
  simp [entries, blobs, pack.nonempty] at hcard

end WrittenPack

/-! ## Indexes of packs -/

section History

variable {k : Key}

/--
The entries of the packs get into an index by `StorePack`.  After that they may
go through index files and other indexes.
-/
inductive IndexOf (packs : List (WrittenPack k)) : Index → Prop
  | new (seed : BlobType → ID → Nat) (now : Nat) : IndexOf packs (.new seed now)
  | storePack {idx idx' : Index} {pack : WrittenPack k} (hidx : IndexOf packs idx)
      (hpack : pack ∈ packs)
      (hstore : idx.storePack pack.id pack.blobs = some idx') : IndexOf packs idx'
  | finalize {idx : Index} (hidx : IndexOf packs idx) : IndexOf packs idx.finalize
  | decode {idx idx' : Index} {file : JsonIndex} (hidx : IndexOf packs idx)
      (hencode : idx.encode = some file) (seed : BlobType → ID → Nat) (now : Nat)
      (id : ID) (hdecode : Index.decode (.new seed now) id (.current file) =
        some idx') : IndexOf packs idx'
  | merge {idx idx2 idx' : Index} (hidx : IndexOf packs idx)
      (hidx2 : IndexOf packs idx2) (hmerge : idx.merge idx2 = .ok idx') : IndexOf packs idx'

/-- Entries of the packs, as the index can hold them. -/
def ComeFrom (packs : List (WrittenPack k)) (entries : Multiset PackedBlob) : Prop :=
  ∀ pb ∈ entries, pb ∈ WrittenPack.allEntries packs ∧ pb.length ≤ Index.maxuint32

theorem ComeFrom.storePack {packs : List (WrittenPack k)} {pack : WrittenPack k}
    {content : Multiset PackedBlob} (hcontent : ComeFrom packs content)
    (hpack : pack ∈ packs) (hfits : ∀ b ∈ pack.blobs, b.length ≤ Index.maxuint32) : ComeFrom packs
      ((pack.blobs.map (Index.packed pack.id) : Multiset PackedBlob) + content) := by
  intro pb hpb
  rcases mem_add.mp hpb with hpb | hpb
  · refine ⟨WrittenPack.mem_allEntries.mpr ⟨pack, hpack, hpb⟩, ?_⟩
    obtain ⟨blob, hblob, rfl⟩ := List.mem_map.mp hpb
    exact hfits blob hblob
  · exact hcontent pb hpb

theorem IndexOf.comeFrom {packs : List (WrittenPack k)} {idx : Index}
    (h : IndexOf packs idx) : ComeFrom packs idx.content := by
  induction h with
  | new seed now => exact nofun
  | storePack _ hpack hstore ih =>
    rw [(storePack_spec hstore).1]
    exact ih.storePack hpack fun b hb => (fits_of_storePack hstore b hb).2
  | finalize _ ih => exact ih
  | decode _ hencode seed now id hdecode ih =>
    rw [(decode_spec hdecode).2.1]
    change ComeFrom packs (JsonIndex.listed _)
    rw [listed_encode hencode]
    exact ih
  | @merge idx idx2 idx' _ _ hmerge ih ih2 =>
    have hfinal : idx2.final := by
      unfold Index.merge at hmerge
      split at hmerge
      · assumption
      · cases hmerge
    obtain ⟨_, hsame, -, hcontent⟩ := idx.merge_spec hfinal
    rw [hmerge] at hsame
    cases hsame
    intro pb hpb
    rw [hcontent, mem_union, mem_dedup] at hpb
    rcases hpb with hpb | hpb
    · exact ih pb hpb
    · exact ih2 pb hpb

namespace MasterIndex

/-- Only entries of the packs are put into the master index. -/
def EditOf (packs : List (WrittenPack k)) : MasterIndex → Edit → Prop
  | _, .insert idx => IndexOf packs idx
  | _, .storePack id blobs _ _ => ∃ pack ∈ packs, id = pack.id ∧ blobs = pack.blobs
  | _, .finalizeNotFinalIndexes => True
  | _, .finalizeFullIndexes _ => True
  | _, .mergeFinalIndexes => True

theorem fits_of_storeInto {id : ID} {blobs : List Blob} {newIdx : Index}
    {rest rest' : List Index} (h : storeInto id blobs newIdx rest = some rest') :
    ∀ b ∈ blobs, b.length ≤ Index.maxuint32 := by
  induction rest generalizing rest' with
  | nil =>
    obtain ⟨idx, hidx, -⟩ := Option.map_eq_some_iff.mp h
    exact fun b hb => (fits_of_storePack hidx b hb).2
  | cons idx rest ih =>
    rw [storeInto] at h
    split at h
    · obtain ⟨stored, hstored, -⟩ := Option.map_eq_some_iff.mp h
      exact ih hstored
    · obtain ⟨idx', hidx, -⟩ := Option.map_eq_some_iff.mp h
      exact fun b hb => (fits_of_storePack hidx b hb).2

theorem step_comeFrom {packs : List (WrittenPack k)} {mi mi' : MasterIndex} {edit : Edit}
    (hcontent : ComeFrom packs mi.content) (hedit : EditOf packs mi edit)
    (h : mi.step edit = some mi') : ComeFrom packs mi'.content := by
  cases edit with
  | insert idx =>
    cases h
    have hinsert : (mi.insert idx).content = mi.content + idx.content := by
      simp [insert, content, add_assoc]
    rw [hinsert]
    intro pb hpb
    rcases mem_add.mp hpb with hpb | hpb
    · exact hcontent pb hpb
    · exact IndexOf.comeFrom hedit pb hpb
  | storePack id blobs seed now =>
    obtain ⟨pack, hpack, rfl, rfl⟩ := hedit
    obtain ⟨rest, hrest, -⟩ := Option.map_eq_some_iff.mp h
    rw [(storePack_spec rfl h).1]
    exact hcontent.storePack hpack (fits_of_storeInto hrest)
  | finalizeNotFinalIndexes =>
    cases h
    have hsame : mi.finalizeNotFinalIndexes.2.content = mi.content := (finalizeIf_spec _ rfl).1
    rw [hsame]
    exact hcontent
  | finalizeFullIndexes now =>
    cases h
    have hsame : (mi.finalizeFullIndexes now).2.content = mi.content := (finalizeIf_spec _ rfl).1
    rw [hsame]
    exact hcontent
  | mergeFinalIndexes =>
    obtain ⟨merged, hmerge, -, -, hmem, -⟩ := mi.mergeFinalIndexes_spec
    simp only [step, hmerge, Except.toOption, Option.some.injEq] at h
    subst h
    exact fun pb hpb => hcontent pb ((hmem pb).mp hpb)

/-- The entries of the packs are in the master index as often as in the packs. -/
def EachOnce (packs : List (WrittenPack k)) (mi : MasterIndex) : Prop :=
  ∀ pb ∈ WrittenPack.allEntries packs, mi.content.count pb = (WrittenPack.allEntries packs).count pb

variable {packs : List (WrittenPack k)} {mi : MasterIndex} {seed : BlobType → ID → Nat} {now : Nat}

theorem comeFrom_of_reaches (hreach : Reaches step (EditOf packs) (new seed now) mi) :
    ComeFrom packs mi.content := hreach.invariant _ nofun fun _ _ _ => step_comeFrom

theorem content_eq_allEntries (hcome : ComeFrom packs mi.content)
    (honce : EachOnce packs mi) : mi.content = WrittenPack.allEntries packs := by
  ext pb
  by_cases hpb : pb ∈ WrittenPack.allEntries packs
  · exact honce pb hpb
  · rw [count_eq_zero_of_notMem hpb, count_eq_zero_of_notMem fun hmem => hpb (hcome pb hmem).1]

theorem lookup_packSize_pack (hcontent : mi.content = WrittenPack.allEntries packs)
    (hdistinct : (packs.map WrittenPack.id).Nodup) {pack : WrittenPack k} (hpack : pack ∈ packs) :
    (mi.packSize false).lookup pack.id = some pack.size ∧
      (mi.packSize true).lookup pack.id = some (headerSize + pack.blobs.length * entrySize) := by
  have hentries : mi.entriesOf pack.id = pack.entries := by
    rw [entriesOf, hcontent, WrittenPack.filter_allEntries hdistinct hpack]
  have hcard : pack.entries.card = pack.blobs.length := by simp [WrittenPack.entries]
  constructor
  · rw [lookup_packSize, hentries, if_neg pack.entries_ne_zero, pack.size_eq.2]
    rfl
  · rw [lookup_packSize, hentries, if_neg pack.entries_ne_zero, hcard]
    rfl

theorem lookup_packSize_other (hcontent : mi.content = WrittenPack.allEntries packs) {id : ID}
    (hid : id ∉ packs.map WrittenPack.id) (onlyHdr : Bool) :
    (mi.packSize onlyHdr).lookup id = none := by
  rw [lookup_packSize, entriesOf, hcontent, WrittenPack.filter_allEntries_of_notMem hid, if_pos rfl]

end MasterIndex

end History

end Rapi.Repository
