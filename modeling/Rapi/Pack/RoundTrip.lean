import Rapi.Pack.Reader

/-!
# The pack format round trip

Whatever is added to a packer is listed again from the finished file: the same
entries in the same order, at the places where their bytes are stored.
-/

namespace Rapi.Pack

open Foundation Crypto Restic List

/-- The number of bytes that the given additions take in the blob area. -/
def totalLength (additions : List Addition) : Nat := (additions.map fun a => a.data.length).sum

theorem length_contents (additions : List Addition) :
    (contents additions).length = totalLength additions := by
  simp [contents, totalLength, length_flatMap]

theorem sum_length_entriesFrom (offset : Nat) (additions : List Addition) :
    ((entriesFrom offset additions).map Blob.length).sum = totalLength additions := by
  induction additions generalizing offset with
  | nil => rfl
  | cons a rest ih =>
    have hrest := ih (offset + a.data.length)
    simp only [entriesFrom, map_cons, sum_cons, hrest]
    simp [totalLength]

theorem getElem?_entriesFrom (offset : Nat) (additions : List Addition)
    (i : Nat) (a : Addition) (h : additions[i]? = some a) : (entriesFrom offset additions)[i]? =
      some { id := a.id, type := a.type, length := a.data.length
             offset := offset + totalLength (additions.take i) } := by
  induction additions generalizing offset i with
  | nil => simp at h
  | cons first rest ih =>
    cases i with
    | zero =>
      simp only [getElem?_cons_zero, Option.some.injEq] at h
      subst h
      simp [entriesFrom, totalLength]
    | succ i =>
      rw [getElem?_cons_succ] at h
      simp only [entriesFrom, getElem?_cons_succ]
      rw [ih (offset + first.data.length) i h]
      simp [totalLength, Nat.add_assoc]

theorem mem_entriesFrom {offset : Nat} {additions : List Addition} {b : Blob}
    (h : b ∈ entriesFrom offset additions) :
    ∃ a ∈ additions, b.type = a.type ∧ b.length = a.data.length := by
  induction additions generalizing offset with
  | nil => simp [entriesFrom] at h
  | cons first rest ih =>
    simp only [entriesFrom, mem_cons] at h
    obtain rfl | h := h
    · exact ⟨first, by simp, rfl, rfl⟩
    · obtain ⟨a, ha, hb⟩ := ih h
      exact ⟨a, by simp [ha], hb⟩

theorem slice_contents (additions : List Addition) (tail : Bytes) (i : Nat)
    (a : Addition) (h : additions[i]? = some a) :
    slice (contents additions ++ tail) (totalLength (additions.take i)) a.data.length = a.data := by
  induction additions generalizing i with
  | nil => simp at h
  | cons first rest ih =>
    cases i with
    | zero =>
      simp only [getElem?_cons_zero, Option.some.injEq] at h
      subst h
      simp [slice, totalLength]
    | succ i =>
      rw [getElem?_cons_succ] at h
      have hoffset : totalLength ((first :: rest).take (i + 1)) =
          first.data.length + totalLength (rest.take i) := by
        simp [totalLength]
      have hrest := ih i h
      rw [hoffset, contents_cons, append_assoc]
      unfold slice at hrest ⊢
      rw [← drop_drop, drop_left]
      exact hrest

/-- The file that a packer writes for the given blobs. -/
def packFile (k : Key) (nonce : Nonce) (additions : List Addition) : Bytes :=
  ((addAll .new additions).finalize k nonce none none).1.wr

section PackFile

variable {k : Key} {nonce : Nonce} {additions : List Addition}

theorem addAll_new (additions : List Addition) : addAll .new additions =
      { blobs := entriesFrom 0 additions
        bytes := (contents additions).length
        wr := contents additions } := by
  simp [addAll_eq, Packer.new]

theorem exists_makeHeader_addAll (htype : ∀ a ∈ additions, a.type ≠ .invalid) :
    ∃ header, makeHeader (addAll .new additions).blobs = .ok header := by
  apply exists_makeHeader
  intro b hb
  rw [addAll_new] at hb
  obtain ⟨a, ha, hba, -⟩ := mem_entriesFrom hb
  rw [hba]
  exact htype a ha

theorem list_packFile (hne : additions ≠ []) (htype : ∀ a ∈ additions, a.type ≠ .invalid)
    (hlength : ∀ a ∈ additions, a.data.length < 2 ^ 32)
    (hheader : additions.length * entrySize + extension ≤ maxHeaderSize) :
    list k (packFile k nonce additions) (packFile k nonce additions).length =
      .ok (entriesFrom 0 additions,
        headerLengthSize + (additions.length * entrySize + extension)) := by
  obtain ⟨header, hmake⟩ := exists_makeHeader_addAll htype
  have hfile : packFile k nonce additions = _ := congrArg (fun r => r.1.wr) (finalize_eq hmake)
  have hlist := @list_isPack (entriesFrom 0 additions) k (contents additions)
    (packFile k nonce additions) ?_ ?_ ?_ ?_
  · rw [hlist, relocate_entriesFrom, length_entriesFrom]
  · refine ⟨nonce, header, by rw [← hmake, addAll_new], ?_⟩
    rw [hfile, addAll_new, append_assoc]
  · rw [← length_pos_iff, length_entriesFrom]
    exact length_pos_iff.mpr hne
  · intro b hb
    obtain ⟨a, ha, -, hba⟩ := mem_entriesFrom hb
    rw [hba]
    exact hlength a ha
  · rw [length_entriesFrom]
    exact hheader

end PackFile

/--
Writing a non-empty list of blobs and reading the file back.  `total` is what
`Finalize` returns, and `hdrSize` is what `List` returns beside the entries.
-/
theorem list_finalize_addAll (k : Key) (nonce : Nonce)
    (additions : List Addition) (hne : additions ≠ [])
    (htype : ∀ a ∈ additions, a.type ≠ .invalid)
    (hlength : ∀ a ∈ additions, a.data.length < 2 ^ 32)
    (hheader : additions.length * entrySize + extension ≤ maxHeaderSize) :
    ∃ p total hdrSize,
      (addAll .new additions).finalize k nonce none none = (p, .ok total) ∧
      p.blobs = (addAll .new additions).blobs ∧
      list k p.wr p.wr.length = .ok (p.blobs, hdrSize) ∧
      hdrSize + (p.blobs.map Blob.length).sum = total ∧
      total = p.wr.length ∧
      p.blobs.length = additions.length ∧
      ∀ i a, additions[i]? = some a →
        ∃ b, p.blobs[i]? = some b ∧ b.type = a.type ∧ b.id = a.id ∧
          b.length = a.data.length ∧
          b.offset = totalLength (additions.take i) ∧
          slice p.wr b.offset b.length = a.data := by
  have hblobs : (addAll .new additions).blobs = entriesFrom 0 additions := by rw [addAll_new]
  obtain ⟨header, hmake⟩ := exists_makeHeader_addAll htype
  have hsize : header.length = additions.length * entrySize := by
    rw [length_makeHeader hmake, hblobs, length_entriesFrom]
  have henc : (k.encrypt nonce header).length = additions.length * entrySize + extension := by
    rw [Key.length_encrypt, hsize]
  refine ⟨_, _, headerLengthSize + (k.encrypt nonce header).length,
    finalize_eq hmake, rfl, ?_, ?_, ?_, ?_, ?_⟩
  · have hlist := @list_packFile k nonce additions hne htype hlength hheader
    rw [packFile, finalize_eq hmake] at hlist
    rw [hlist, hblobs, henc]
  · rw [hblobs, sum_length_entriesFrom, henc, addAll_new, hsize, length_contents]
    simp only [headerSize]
    omega
  · rw [addAll_new, hsize]
    simp only [length_append, length_putUint, henc, headerSize]
    omega
  · rw [hblobs, length_entriesFrom]
  · intro i a ha
    have hentry := getElem?_entriesFrom 0 additions i a ha
    rw [Nat.zero_add, ← hblobs] at hentry
    refine ⟨_, hentry, rfl, rfl, rfl, rfl, ?_⟩
    rw [addAll_new, append_assoc]
    exact slice_contents additions _ i a ha

def sampleAdditions : List Addition := [⟨.data, .ofNat 1, [7, 8, 9]⟩, ⟨.tree, .ofNat 2, []⟩]

theorem list_finalize_sampleAdditions :
    ∃ p total hdrSize,
      (addAll .new sampleAdditions).finalize sampleKey sampleNonce none none =
        (p, .ok total) ∧
      list sampleKey p.wr p.wr.length = .ok (p.blobs, hdrSize) ∧
      hdrSize + (p.blobs.map Blob.length).sum = total := by
  obtain ⟨p, total, hdrSize, hfinalize, -, hlist, htotal, -⟩ :=
    list_finalize_addAll sampleKey sampleNonce sampleAdditions (by decide)
      (by decide) (by decide) (by decide)
  exact ⟨p, total, hdrSize, hfinalize, hlist, htotal⟩

end Rapi.Pack
