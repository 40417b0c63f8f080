import Rapi.Pack.Reader
import Rapi.Repository.ConcurrentSaves
import Rapi.Repository.SaveOutcomes

/-!
# Packs that can be listed again

Only the reader of a pack checks how long the header is.  The writer stays below
the limit because each ciphertext has a nonce and a MAC, and because a packer is
put back only as long as it is smaller than `minPackSize`.
-/

namespace Rapi.Repository

open Foundation Crypto Restic
open Pack (entrySize headerLengthSize headerSize maxHeaderSize minFileSize)
open List

/-- A pack that no check of the reader rejects. -/
def Listable (k : Key) (content : Bytes) : Prop :=
  ∃ t blobs area nonce header, content = area ++ (k.encrypt nonce header ++
      putUint headerLengthSize (k.encrypt nonce header).length) ∧
    Pack.makeHeader blobs = .ok header ∧ blobs ≠ [] ∧
    (∀ b ∈ blobs, b.type = t) ∧
    (k.encrypt nonce header).length ≤ maxHeaderSize ∧
    minFileSize < content.length ∧
    (∀ max, ∃ records, Pack.readRecords content content.length max = .ok (records, blobs.length)) ∧
    Pack.list k content content.length = .ok (blobs, headerSize + blobs.length * entrySize)

/-! ## Packers -/

/-- The packers of the calls that have not failed. -/
structure Shaped (c : Setting) (t : BlobType) (p : Packer) : Prop where
  isOpen : p.tmpfile.closed = false
  filled : p.packer.Filled
  intact : c.Intact p
  types : ∀ b ∈ p.packer.blobs, b.type = t
  lengths : ∀ b ∈ p.packer.blobs, extension ≤ b.length ∧ b.length ≤ 2 ^ 31 + extension

/-- A packer that is put back into the list. -/
structure Kept (c : Setting) (t : BlobType) (p : Packer) : Prop where
  shaped : Shaped c t p
  nonempty : p.packer.blobs ≠ []
  small : p.packer.size < minPackSize

section Packers

variable {c : Setting} {t : BlobType} {p p' : Packer}

theorem Shaped.new : Shaped c t .new := ⟨rfl, .new, .new, nofun, nofun⟩

theorem Shaped.add {id : ID} {nonce : Nonce} {data : Bytes} {fault : Pack.WriteFault}
    (hp : Shaped c t p) (hdata : data.length ≤ 2 ^ 31) (hpassed : c.passed ⟨id, t⟩ data)
    (h : p.add t id (c.key.encrypt nonce data) fault = (p', none)) :
    Shaped c t p' ∧ p'.packer.blobs.length = p.packer.blobs.length + 1 := by
  obtain ⟨-, hblobs, -, -, hfile⟩ := Packer.add_spec h
  have hpacker : p'.packer = (p.packer.add t id (c.key.encrypt nonce data) fault).1 :=
    congrArg (fun result => result.1.packer) h.symm
  refine ⟨⟨?_, ?_, hp.intact.add hpassed h, ?_, ?_⟩, ?_⟩
  · rw [hfile]
    exact hp.isOpen
  · rw [hpacker]
    exact .add hp.filled ..
  · intro b hb
    rw [hblobs, mem_append, mem_singleton] at hb
    rcases hb with hb | rfl
    · exact hp.types b hb
    · rfl
  · intro b hb
    rw [hblobs, mem_append, mem_singleton] at hb
    rcases hb with hb | rfl
    · exact hp.lengths b hb
    · have hlength : (c.key.encrypt nonce data).length =
          data.length + extension := Key.length_encrypt ..
      exact ⟨by simp [hlength], by simpa [hlength] using hdata⟩
  · rw [hblobs, length_append, length_singleton]

theorem Shaped.count_le (hp : Shaped c t p) :
    p.packer.blobs.length * extension ≤ p.packer.size := by
  have hsum : ∀ blobs : List Blob, (∀ b ∈ blobs, extension ≤ b.length) →
      blobs.length * extension ≤ (blobs.map Blob.length).sum := by
    intro blobs
    induction blobs with
    | nil => simp
    | cons b blobs ih =>
      intro hlengths
      obtain ⟨hb, hrest⟩ := forall_mem_cons.mp hlengths
      have := ih hrest
      rw [length_cons, Nat.succ_mul, map_cons, sum_cons]
      omega
  rw [Pack.Packer.size, hp.filled.bytes_eq.1]
  exact hsum _ fun b hb => (hp.lengths b hb).1

/-- The most blobs that a pack can get. -/
def maxBlobs : Nat := minPackSize / extension

theorem Kept.count_lt (hp : Kept c t p) : p.packer.blobs.length < maxBlobs := by
  have hcount := hp.shaped.count_le
  have hsmall := hp.small
  have hext : extension = 32 := rfl
  have hmin : minPackSize = 131072 * 32 := rfl
  have hmax : maxBlobs = 131072 := rfl
  rw [hext] at hcount
  omega

theorem maxBlobs_header : maxBlobs * entrySize + extension ≤ maxHeaderSize := by decide

theorem Shaped.listable {nonce : Nonce} {headerFault lengthFault : Pack.WriteFault}
    {bytesWritten : Nat} (hp : Shaped c t p) (hne : p.packer.blobs ≠ [])
    (hcount : p.packer.blobs.length ≤ maxBlobs)
    (h : p.finalize c.key nonce headerFault lengthFault = (p', .ok bytesWritten)) :
    Listable c.key p'.tmpfile.content := by
  have hblobs : p'.packer.blobs = p.packer.blobs := by
    have hpacker : p'.packer = (p.packer.finalize c.key nonce headerFault lengthFault).1 :=
      congrArg (fun result => result.1.packer) h.symm
    rw [hpacker, Pack.Packer.blobs_finalize]
  obtain ⟨hintact, area, hpack, harea⟩ := hp.intact.finalize h
  rw [hblobs] at hpack harea
  rw [hintact.content]
  generalize p'.packer.wr = content at hpack
  have hheader : p.packer.blobs.length * entrySize + extension ≤ maxHeaderSize :=
    (Nat.add_le_add_right (Nat.mul_le_mul_right _ hcount) _).trans maxBlobs_header
  have hlength : ∀ b ∈ p.packer.blobs, b.length < 2 ^ 32 := by
    intro b hb
    have hext : extension = 32 := rfl
    have := (hp.lengths b hb).2
    omega
  have hlist := Pack.list_isPack hpack hne hlength hheader
  rw [hp.filled.relocate_blobs] at hlist
  obtain ⟨nonce', header, hmake, rfl⟩ := hpack
  have henc : (c.key.encrypt nonce' header).length =
      p.packer.blobs.length * entrySize + extension := by
    rw [Key.length_encrypt, Pack.length_makeHeader hmake]
  have hfield : header.length + extension =
      (c.key.encrypt nonce' header).length := (Key.length_encrypt ..).symm
  rw [hfield] at hlist ⊢
  refine ⟨t, p.packer.blobs, area, nonce', header, rfl, hmake, hne, hp.types, ?_, ?_, ?_, ?_⟩
  · rw [henc]
    exact hheader
  · -- the first blob is not empty
    obtain ⟨b, hb⟩ := exists_mem_of_ne_nil _ hne
    have hblob := harea b hb
    have hext := (hp.lengths b hb).1
    have hpos : 0 < extension := by decide
    have hcount : entrySize ≤ p.packer.blobs.length * entrySize :=
      Nat.le_mul_of_pos_left _ (length_pos_iff.mpr hne)
    simp only [length_append, length_putUint, henc, minFileSize]
    omega
  · intro max
    obtain ⟨records, hread, -⟩ := Pack.readRecords_eq area
      (c.key.encrypt nonce' header) p.packer.blobs.length max henc (by rw [henc]; exact hheader)
    rw [append_assoc] at hread
    exact ⟨records, hread⟩
  · rw [hlist, headerSize]
    congr 2
    omega

end Packers

/-! ## Saving packers -/

section Calls

variable {r : Repo} {start s s' : RepoState}

def PacksListable (r : Repo) (start s : RepoState) : Prop :=
  ∀ pack ∈ s.packs, pack ∈ start.packs ∨ Listable r.key pack.2

structure InShape (r : Repo) (start s : RepoState) : Prop where
  packs : PacksListable r start s
  kept : ∀ t, ∀ p ∈ (s.pm t).packers, Kept (uncounted r start) t p

variable {t : BlobType}

theorem savePacker_listable {p p' : Packer} (hp : Shaped (uncounted r start) t p)
    (hne : p.packer.blobs ≠ []) (hcount : p.packer.blobs.length ≤ maxBlobs)
    (hs : PacksListable r start s) (h : Runs system (r.savePacker p) s (p', none) s') :
    s'.pm = s.pm ∧ PacksListable r start s' := by
  obtain ⟨nonce, p₁, n, hfinalize, -, hpm, -, hpacks, -⟩ := savePacker_ok h
  refine ⟨hpm, fun pack hpack => ?_⟩
  rw [hpacks] at hpack
  rcases mem_cons.mp hpack with rfl | hpack
  · exact Or.inr (hp.listable hne hcount hfinalize)
  · exact hs pack hpack

theorem InShape.setManager {packers : List Packer} {locked : Bool} (hs : InShape r start s)
    (hpackers : ∀ p ∈ packers, Kept (uncounted r start) t p) :
    InShape r start (s.setManager t ⟨packers, locked⟩) := by
  refine ⟨hs.packs, fun t' p hp => ?_⟩
  simp only [RepoState.setManager] at hp
  by_cases ht : t' = t
  · subst ht
    rw [Function.update_self] at hp
    exact hpackers p hp
  · rw [Function.update_of_ne ht] at hp
    exact hs.kept t' p hp

theorem InShape.findPacker {p : Packer} (hs : InShape r start s)
    (h : exec (.findPacker t) s (some p) s') : InShape r start s' ∧ Shaped (uncounted r start) t p ∧
      p.packer.blobs.length < maxBlobs := by
  obtain ⟨-, h⟩ := h
  cases htake : takePacker (s.pm t).packers with
  | none =>
    simp only [htake, Option.some.injEq, reduceCtorEq, or_false] at h
    obtain ⟨rfl, rfl⟩ := h
    exact ⟨hs, .new, by decide⟩
  | some taken =>
    obtain ⟨first, rest⟩ := taken
    simp only [htake, Option.some.injEq] at h
    obtain ⟨rfl, rfl⟩ := h
    have hmem := takePacker_some htake
    have hp : Kept (uncounted r start) t p := by
      refine hs.kept t p ?_
      rw [← Multiset.mem_coe, hmem]
      exact Multiset.mem_cons_self p _
    refine ⟨hs.setManager fun q hq => hs.kept t q ?_, hp.shaped, hp.count_lt⟩
    rw [← Multiset.mem_coe, hmem]
    exact Multiset.mem_cons_of_mem hq

theorem InShape.saveAndEncrypt {data : Bytes} {id : ID} (hs : InShape r start s)
    (hdata : data.length ≤ 2 ^ 31) (h : Runs system (r.saveAndEncrypt t data id) s none s') :
    InShape r start s' := by
  obtain ⟨nonce, _, rfl, hrest⟩ := h.perform_inv
  dsimp only at hrest
  split at hrest
  · obtain ⟨res, -⟩ := hrest.perform_inv
    cases res
  · obtain ⟨found, mid, hfind, hrest⟩ := hrest.perform_inv
    cases found with
    | none => cases hrest
    | some packer =>
      obtain ⟨hmid, hshaped, hcount⟩ := hs.findPacker hfind
      obtain ⟨fault, _, ⟨-, rfl⟩, hadded⟩ := hrest.perform_inv
      cases hadd : packer.add t id (r.key.encrypt nonce data) fault with
      | mk packer' err =>
        rw [hadd] at hadded
        cases err with
        | some err => cases hadded
        | none =>
          obtain ⟨hshaped', hlength⟩ := hshaped.add hdata trivial hadd
          have hne : packer'.packer.blobs ≠ [] := by
            rw [← length_pos_iff, hlength]
            exact Nat.succ_pos _
          dsimp only at hadded
          split at hadded
          · rename_i hsmall
            obtain ⟨_, _, ⟨-, rfl⟩, hreturn⟩ := hadded.perform_inv
            cases hreturn
            refine hmid.setManager fun p hp => ?_
            rcases mem_append.mp hp with hp | hp
            · exact hmid.kept t p hp
            · rw [mem_singleton.mp hp]
              exact ⟨hshaped', hne, hsmall⟩
          · obtain ⟨⟨saved, err⟩, _, hsave, hreturn⟩ := hadded.bind_inv
            cases hreturn
            obtain ⟨hpm, hpacks⟩ := savePacker_listable hshaped' hne
              (by rw [hlength]; exact hcount) hmid.packs hsave
            exact ⟨hpacks, by rw [hpm]; exact hmid.kept⟩

theorem savePackers_listable {packers packers' : List Packer}
    (hpackers : ∀ p ∈ packers, Kept (uncounted r start) t p) (hs : PacksListable r start s)
    (h : Runs system (r.savePackers packers) s (packers', none) s') : PacksListable r start s' := by
  induction packers generalizing s packers' with
  | nil =>
    cases h
    exact hs
  | cons p rest ih =>
    obtain ⟨hp, hrest⟩ := forall_mem_cons.mp hpackers
    obtain ⟨⟨saved, err⟩, mid, hsave, hnext⟩ := h.bind_inv
    cases err with
    | some err => cases hnext
    | none =>
      obtain ⟨-, hmid⟩ := savePacker_listable hp.shaped hp.nonempty hp.count_lt.le hs hsave
      obtain ⟨⟨saved', err⟩, _, hothers, hreturn⟩ := hnext.bind_inv
      cases hreturn
      exact ih hrest hmid hothers

theorem InShape.flushManager (hs : InShape r start s)
    (h : Runs system (r.flushManager t) s none s') : InShape r start s' := by
  obtain ⟨packers', mid, hsave, rfl, hpm⟩ :=
    flushManager_inv (h.restrict (P := fun _ _ => True) fun _ _ => trivial)
  have hlocked : InShape r start (s.setManager t ⟨[], true⟩) := hs.setManager (by simp)
  have hempty : InShape r start (s.setManager t ⟨[], false⟩) := hs.setManager (by simp)
  have hpacks : PacksListable r start mid :=
    savePackers_listable (hs.kept t) hlocked.packs hsave.of_restrict
  exact ⟨hpacks, by rw [hpm]; exact hempty.kept⟩

theorem InShape.flushPacks (hs : InShape r start s)
    (h : Runs system r.flushPacks s none s') : InShape r start s' := by
  obtain ⟨err, mid, hdata, hrest⟩ := h.bind_inv
  cases err with
  | some err => cases hrest
  | none => exact (hs.flushManager hdata).flushManager hrest

/-! ## Sequences of calls -/

inductive PackCall
  | saveAndEncrypt (t : BlobType) (data : Bytes) (id : ID)
  | flushPacks

def Repo.packCall (r : Repo) : PackCall → RepoM (Option SaveError)
  | .saveAndEncrypt t data id => r.saveAndEncrypt t data id
  | .flushPacks => r.flushPacks

def PackCall.Fits : PackCall → Prop
  | .saveAndEncrypt _ data _ => data.length ≤ 2 ^ 31
  | .flushPacks => True

/-- One call after the other, and none of them fails. -/
def Proceeds (r : Repo) (s s' : RepoState) : Prop :=
  ∃ call : PackCall, call.Fits ∧ Runs system (r.packCall call) s none s'

theorem InShape.proceeds (hs : InShape r start s) (h : Proceeds r s s') : InShape r start s' := by
  obtain ⟨call, hfits, hruns⟩ := h
  cases call with
  | saveAndEncrypt t data id => exact hs.saveAndEncrypt hfits hruns
  | flushPacks => exact hs.flushPacks hruns

/-- `FlushPacks` and `SaveAndEncrypt` in any order, beginning without packers. -/
theorem packs_are_listable (hstart : ∀ t, (start.pm t).packers = [])
    (hcalls : Relation.ReflTransGen (Proceeds r) start s) :
    (∀ pack ∈ s.packs, pack ∈ start.packs ∨ Listable r.key pack.2) ∧
      ∀ t, ∀ p ∈ (s.pm t).packers,
        p.packer.blobs ≠ [] ∧ p.packer.size < minPackSize := by
  have hshape : InShape r start s := by
    induction hcalls with
    | refl =>
      refine ⟨fun _ => Or.inl, fun t p hp => ?_⟩
      rw [hstart t] at hp
      cases hp
    | tail _ hcall ih => exact ih.proceeds hcall
  exact ⟨hshape.packs, fun t p hp => ⟨(hshape.kept t p hp).nonempty, (hshape.kept t p hp).small⟩⟩

end Calls

theorem packs_are_listable_sample :
    ∃ start s, (∀ t, (start.pm t).packers = []) ∧
      Relation.ReflTransGen (Proceeds sampleRepo) start s ∧
      ∃ pack ∈ s.packs, Listable sampleKey pack.2 := by
  let start := sampleStart.announce ⟨sampleRepo.blobID .null [], .data⟩
  have hstart : ∀ t, (start.pm t).packers = [] := fun _ => rfl
  let pb := playback sampleNonce fun _ _ => none
  have hsave : Runs system (sampleRepo.saveAndEncrypt .data []
      (sampleRepo.blobID .null [])) start none sampleSaved := runs_of_play pb rfl
  obtain ⟨err, s, hflush, rfl, hpacks⟩ := exists_runs pb sampleRepo.flushPacks sampleSaved
    (fun found => found.1 = none ∧ found.2.packs ≠ []) (by decide +kernel)
  have hcalls : Relation.ReflTransGen (Proceeds sampleRepo) start s :=
    (Relation.ReflTransGen.single
      ⟨.saveAndEncrypt .data [] (sampleRepo.blobID .null []), Nat.zero_le _,
        hsave⟩).tail ⟨.flushPacks, trivial, hflush⟩
  obtain ⟨pack, hpack⟩ := exists_mem_of_ne_nil _ hpacks
  exact ⟨start, s, hstart, hcalls, pack, hpack,
    ((packs_are_listable hstart hcalls).1 pack hpack).resolve_left nofun⟩

end Rapi.Repository
