import Rapi.Restorer.VerifyFile

/-!
# What a verified file contains

Each blob of the node is compared with the bytes of the file at its place, so a
verified file begins with the content of the node.  The size of the file is only
compared with the size that the node has recorded.  If that is larger than the
content, then what follows the content is not looked at.
-/

namespace Rapi.Restorer

open Foundation Restic List

namespace Verifier

def contentOf (plaintext : ID → Bytes) (ids : List ID) : Bytes := (ids.map plaintext).flatten

theorem contentOf_cons (plaintext : ID → Bytes) (id : ID) (ids : List ID) :
    contentOf plaintext (id :: ids) = plaintext id ++ contentOf plaintext ids := rfl

/-- The hashes of the blobs have no collisions, and the sizes are those of the
plaintexts. -/
structure Identifies (res : Verifier) (plaintext : ID → Bytes) (ids : List ID) : Prop where
  hash_eq_iff : ∀ id ∈ ids, ∀ data, id = res.hash data ↔ data = plaintext id
  size_eq : ∀ id ∈ ids, ∀ length, res.lookupBlobSize id = some length →
    length = (plaintext id).length

variable {ids : List ID} {offset : Nat} {buf : Bytes}

theorem Identifies.tail {res : Verifier} {plaintext : ID → Bytes} {id : ID}
    (h : res.Identifies plaintext (id :: ids)) : res.Identifies plaintext ids where
  hash_eq_iff other hother := h.hash_eq_iff other (mem_cons_of_mem id hother)
  size_eq other hother := h.size_eq other (mem_cons_of_mem id hother)

variable {res : Verifier} {plaintext : ID → Bytes} {target : Bytes} {f : OpenFile}

theorem readAt_eq_none {length : Nat} {data : Bytes} (h : f.readAt length offset = (data, none)) :
    data = (f.content.drop offset).take length ∧ data.length = length := by
  rw [OpenFile.readAt] at h
  split at h
  · rename_i hzero
    cases h
    exact ⟨by rw [hzero, take_zero], hzero.symm⟩
  · split at h
    · cases h
    · obtain ⟨rfl, hshort⟩ := Prod.mk.inj h
      have hlong : ¬((f.content.drop offset).take length).length < length := by
        intro hlt
        rw [if_pos hlt] at hshort
        cases hshort
      refine ⟨rfl, Nat.le_antisymm ?_ (Nat.not_lt.mp hlong)⟩
      exact length_take_le _ _

theorem verifyBlobs_eq_none (hids : res.Identifies plaintext ids)
    (h : (res.verifyBlobs target f ids offset buf).2 = none) :
    (∀ id ∈ ids, res.lookupBlobSize id ≠ none) ∧
      ∃ rest, f.content.drop offset = contentOf plaintext ids ++ rest := by
  induction ids generalizing offset buf with
  | nil => exact ⟨fun id hid => absurd hid not_mem_nil, f.content.drop offset, rfl⟩
  | cons id ids ih =>
    rw [verifyBlobs] at h
    cases hlookup : res.lookupBlobSize id with
    | none => simp [hlookup] at h
    | some length =>
      simp only [hlookup] at h
      cases hread : f.readAt length offset with
      | mk data failure =>
        cases failure with
        | some failure => simp [hread] at h
        | none =>
          obtain ⟨hdata, hlength⟩ := readAt_eq_none hread
          have hbuf : (overwrite (reserve buf length) 0 data).take length =
              data := by
            rw [← hlength, take_overwrite]
          simp only [hread, hbuf] at h
          split at h
          · cases h
          · rename_i hhash
            have hplain : data = plaintext id :=
              (hids.hash_eq_iff id mem_cons_self data).mp (not_not.mp hhash)
            obtain ⟨hfound, rest, hrest⟩ := ih hids.tail h
            refine ⟨forall_mem_cons.mpr ⟨by simp [hlookup], hfound⟩, rest, ?_⟩
            rw [contentOf_cons, append_assoc, ← hrest, ← hplain, hdata,
              ← drop_drop, take_append_drop]

theorem verifyBlobs_of_content (hids : res.Identifies plaintext ids)
    (hfound : ∀ id ∈ ids, res.lookupBlobSize id ≠ none)
    (hread : ∀ offset, f.readError offset = none) {rest : Bytes}
    (hcontent : f.content.drop offset = contentOf plaintext ids ++ rest) :
    (res.verifyBlobs target f ids offset buf).2 = none := by
  induction ids generalizing offset buf with
  | nil => rfl
  | cons id ids ih =>
    obtain ⟨length, hlookup⟩ := Option.ne_none_iff_exists'.mp (hfound id mem_cons_self)
    have hlength := hids.size_eq id mem_cons_self length hlookup
    have hdata : (f.content.drop offset).take length = plaintext id := by
      rw [hcontent, contentOf_cons, append_assoc, hlength, take_left']
      rfl
    have hreadAt : f.readAt length offset = (plaintext id, none) := by
      rw [OpenFile.readAt]
      split
      · rename_i hzero
        rw [hzero] at hlength
        rw [eq_nil_of_length_eq_zero hlength.symm]
      · have henough : ¬(plaintext id).length < length := Nat.not_lt.mpr (Nat.le_of_eq hlength)
        simp only [hread, hdata, henough, if_false]
    have hhash : id = res.hash (plaintext id) := (hids.hash_eq_iff id mem_cons_self _).mpr rfl
    have hbuf : (overwrite (reserve buf length) 0 (plaintext id)).take length =
        plaintext id := by
      rw [hlength, take_overwrite]
    rw [verifyBlobs]
    simp only [hlookup, hreadAt, hbuf, ← hhash, ne_eq, not_true_eq_false, if_false]
    refine ih hids.tail (fun other hother => hfound other (mem_cons_of_mem id hother)) ?_
    rw [← drop_drop, hcontent, contentOf_cons, append_assoc, hlength, drop_left']
    rfl

theorem verifyFile_eq_none {opened : Except Failure OpenFile} {node : Node}
    (h : (res.verifyFile opened target node buf).2 = none) :
    ∃ f, opened = .ok f ∧ (BitVec.ofNat 64 node.size).toInt = f.content.length ∧
      (res.verifyBlobs target f node.content 0 buf).2 = none := by
  cases opened with
  | error failure => cases h
  | ok f =>
    refine ⟨f, rfl, ?_⟩
    simp only [verifyFile] at h
    split at h
    · cases h
    · split at h
      · cases h
      · rename_i hsize
        exact ⟨not_not.mp hsize, h⟩

/-- Verified files have the content of the node if and only if the node does not
record a size beyond its content (or a blob of it cannot be looked up, and then
nothing is verified). -/
theorem verified_content_iff (res : Verifier) (plaintext : ID → Bytes) (node : Node)
    (hids : res.Identifies plaintext node.content) :
    (∀ (opened : Except Failure OpenFile) (target buf : Bytes),
      (res.verifyFile opened target node buf).2 = none →
        ∃ f, opened = .ok f ∧ f.content = contentOf plaintext node.content) ↔
    ((∀ id ∈ node.content, res.lookupBlobSize id ≠ none) →
      (BitVec.ofNat 64 node.size).toInt ≤ (contentOf plaintext node.content).length) := by
  constructor
  · intro hverified hfound
    by_contra hlarger
    -- a file with the content and zeros behind it is accepted
    let extra := (BitVec.ofNat 64 node.size).toInt.toNat -
      (contentOf plaintext node.content).length
    let f : OpenFile := ⟨contentOf plaintext node.content ++ replicate extra 0, none, fun _ => none⟩
    have hlength : (BitVec.ofNat 64 node.size).toInt = f.content.length := by
      simp only [f, extra, length_append, length_replicate]
      omega
    have haccepted : (res.verifyFile (.ok f) [] node []).2 = none := by
      have hblobs : (res.verifyBlobs [] f node.content 0 []).2 = none :=
        verifyBlobs_of_content hids hfound (fun _ => rfl) drop_zero
      rw [verifyFile]
      simp only [hlength, ne_eq, not_true_eq_false, if_false]
      exact hblobs
    obtain ⟨f', hf', hcontent⟩ := hverified (.ok f) [] [] haccepted
    obtain rfl := Except.ok.inj hf'
    rw [hcontent] at hlength
    omega
  · intro hsize opened target buf hnone
    obtain ⟨f, rfl, hlength, hblobs⟩ := verifyFile_eq_none hnone
    obtain ⟨hfound, rest, hrest⟩ := verifyBlobs_eq_none hids hblobs
    rw [drop_zero] at hrest
    refine ⟨f, rfl, ?_⟩
    have hle := hsize hfound
    rw [hlength, hrest, length_append] at hle
    have hnil : rest = [] := eq_nil_of_length_eq_zero (by omega)
    rw [hrest, hnil, append_nil]

def sampleVerifier : Verifier where
  hash data :=
    match data with
    | [b] => .ofNat b.toNat
    | _ => .null
  lookupBlobSize _ := some 1

def sampleVerified (size : Nat) : Node := (sampleFile (ascii "file") size [.ofNat 7]).toNode

theorem sampleVerifier_identifies (size : Nat) :
    sampleVerifier.Identifies (fun _ => [7]) (sampleVerified size).content where
  hash_eq_iff id hid data := by
    obtain rfl := mem_singleton.mp hid
    have hnull : ID.ofNat 7 ≠ ID.null := by decide
    constructor
    · intro hhash
      match data with
      | [b] =>
        have hbytes := congrArg ID.bytes hhash
        simp only [sampleVerifier, ID.ofNat] at hbytes
        have hlast := append_cancel_left hbytes
        have hb : (7 : UInt8) = b := by simpa using hlast
        rw [hb]
      | [] => exact absurd hhash hnull
      | _ :: _ :: _ => exact absurd hhash hnull
    · rintro rfl
      decide
  size_eq id hid length hlookup := by
    cases hlookup
    rfl

theorem verified_content_iff_sample :
    (sampleVerifier.verifyFile (.ok ⟨[7], none, fun _ => none⟩) [] (sampleVerified 1)
      []).2 = none ∧
    ∃ f, (.ok ⟨[7], none, fun _ => none⟩ : Except Failure OpenFile) = .ok f ∧
      f.content = contentOf (fun _ => [7]) (sampleVerified 1).content := by
  have hverified : (sampleVerifier.verifyFile (.ok ⟨[7], none, fun _ => none⟩) []
      (sampleVerified 1) []).2 = none := by decide
  refine ⟨hverified, ?_⟩
  exact (verified_content_iff sampleVerifier (fun _ => [7]) (sampleVerified 1)
    (sampleVerifier_identifies 1)).mpr (fun _ => by decide) _ [] [] hverified

/-- The node has one blob of one byte but records a size of two, and a file with
another byte at the end is accepted. -/
theorem trailing_byte_verified :
    sampleVerifier.Identifies (fun _ => [7]) (sampleVerified 2).content ∧
      (sampleVerifier.verifyFile (.ok ⟨[7, 0], none, fun _ => none⟩) []
        (sampleVerified 2) []).2 = none ∧
      [7, 0] ≠ contentOf (fun _ => [7]) (sampleVerified 2).content :=
  ⟨sampleVerifier_identifies 2, by decide, by decide⟩

end Verifier

end Rapi.Restorer
