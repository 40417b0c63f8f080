import Rapi.Pack.Reader

/-!
# Headers are canonical

Which decrypted headers `List` accepts, and that each of them is the header
that `makeHeader` writes for the blobs that were read.  So a header is
determined by its list of blobs, whoever wrote it.
-/

namespace Rapi.Pack

open Foundation Restic List Nat

/-- Entries without a rest, each of a known type. -/
structure WellFormed (buf : Bytes) : Prop where
  dvd : buf.length % entrySize = 0
  types : ∀ i, i * entrySize < buf.length →
    buf[i * entrySize]? = some 0 ∨ buf[i * entrySize]? = some 1

theorem wellFormed_nil : WellFormed [] := ⟨rfl, by simp⟩

variable {buf : Bytes} {b : Blob} {pos : Nat} {entries : List Blob}

theorem wellFormed_iff (hne : buf ≠ []) : WellFormed buf ↔ (entrySize ≤ buf.length ∧
      (buf[0]? = some 0 ∨ buf[0]? = some 1)) ∧ WellFormed (buf.drop entrySize) := by
  have hpos : 0 < buf.length := length_pos_iff.mpr hne
  have hsize : entrySize = 37 := rfl
  constructor
  · rintro ⟨hdvd, htypes⟩
    rw [hsize] at hdvd htypes
    have hfirst := htypes 0 (by omega)
    rw [zero_mul] at hfirst
    refine ⟨⟨by omega, hfirst⟩, ?_, ?_⟩
    · rw [length_drop, hsize]
      omega
    · intro i hi
      rw [length_drop, hsize] at hi
      have hnext := htypes (i + 1) (by omega)
      rw [getElem?_drop, hsize]
      rwa [succ_mul, add_comm] at hnext
  · rintro ⟨⟨hlength, hfirst⟩, hdvd, htypes⟩
    rw [length_drop, hsize] at hdvd
    rw [hsize] at hlength htypes
    refine ⟨by rw [hsize]; omega, ?_⟩
    intro i hi
    cases i with
    | zero =>
      rw [zero_mul]
      exact hfirst
    | succ i =>
      rw [hsize] at hi ⊢
      have hnext := htypes i (by rw [length_drop]; omega)
      rw [getElem?_drop] at hnext
      rwa [succ_mul, add_comm]

/-! ## One entry -/

theorem parseHeaderEntry_isOk {p : Bytes} : (∃ b, parseHeaderEntry p = .ok b) ↔
      entrySize ≤ p.length ∧ (p[0]? = some 0 ∨ p[0]? = some 1) := by
  unfold parseHeaderEntry
  split
  · rename_i hshort
    constructor
    · rintro ⟨_, h⟩
      cases h
    · rintro ⟨hlength, _⟩
      omega
  · rename_i hlong
    cases p with
    | nil => simp [entrySize] at hlong
    | cons first rest =>
      have hlength : entrySize ≤ (first :: rest).length := by omega
      simp only [headD_cons, getElem?_cons_zero, Option.some.injEq, hlength, true_and]
      split
      · exact ⟨fun _ => Or.inl rfl, fun _ => ⟨_, rfl⟩⟩
      · exact ⟨fun _ => Or.inr rfl, fun _ => ⟨_, rfl⟩⟩
      · rename_i hdata htree
        constructor
        · rintro ⟨_, h⟩
          cases h
        · rintro (h | h)
          · exact absurd h hdata
          · exact absurd h htree

theorem headerEntry_of_parseHeaderEntry {p : Bytes} (h : parseHeaderEntry p = .ok b)
    (offset : Nat) : headerEntry { b with offset := offset } = .ok (p.take entrySize) := by
  have hlength := (parseHeaderEntry_isOk.mp ⟨b, h⟩).1
  cases p with
  | nil => simp [entrySize] at hlength
  | cons first rest =>
    have hrest : headerLengthSize + idSize ≤ rest.length := by
      simp only [length_cons, entrySize] at hlength
      omega
    have hfield : slice (first :: rest) 1 headerLengthSize =
        rest.take headerLengthSize := rfl
    have hid : slice (first :: rest) (1 + headerLengthSize) idSize =
        (rest.drop headerLengthSize).take idSize := by
      rw [add_comm]
      rfl
    have hwidth : (rest.take headerLengthSize).length = headerLengthSize := by
      rw [length_take]
      omega
    have hput : putUint headerLengthSize
        (uintOf (rest.take headerLengthSize)) = rest.take headerLengthSize := by
      have hback := putUint_uintOf (rest.take headerLengthSize)
      rwa [hwidth] at hback
    have htake : (first :: rest).take entrySize = first :: (rest.take headerLengthSize ++
          (rest.drop headerLengthSize).take idSize) := by
      rw [show entrySize = headerLengthSize + idSize + 1 from rfl, take_succ_cons, take_add]
    rw [htake]
    unfold parseHeaderEntry at h
    rw [dif_neg (not_lt.mpr hlength)] at h
    simp only [headD_cons, hfield, hid] at h
    split at h
    · cases h
      simp only [headerEntry, hput, cons_append]
    · cases h
      simp only [headerEntry, hput, cons_append]
    · cases h

/-! ## The loop -/

theorem parseEntries_ok (hne : buf ≠ []) : parseEntries pos buf = .ok entries ↔
      ∃ entry rest, parseHeaderEntry buf = .ok entry ∧
        parseEntries (pos + entry.length) (buf.drop entrySize) = .ok rest ∧
        entries = { entry with offset := pos } :: rest := by
  rw [parseEntries, dif_neg hne]
  cases hentry : parseHeaderEntry buf with
  | error err => simp [bind, Except.bind]
  | ok entry =>
    cases hrest : parseEntries (pos + entry.length) (buf.drop entrySize) with
    | error err => simp [bind, Except.bind, hrest]
    | ok rest => simp [bind, Except.bind, hrest, pure, Except.pure, eq_comm]

theorem parseEntries_isOk (pos : Nat) (buf : Bytes) :
    (∃ entries, parseEntries pos buf = .ok entries) ↔ WellFormed buf := by
  induction pos, buf using parseEntries.induct with
  | case1 pos =>
    refine ⟨fun _ => wellFormed_nil, fun _ => ⟨[], ?_⟩⟩
    rw [parseEntries, dif_pos rfl]
  | case2 pos buf hne ih =>
    simp only [parseEntries_ok hne]
    rw [wellFormed_iff hne, ← parseHeaderEntry_isOk]
    constructor
    · rintro ⟨_, entry, rest, hentry, hrest, _⟩
      exact ⟨⟨entry, hentry⟩, (ih entry).mp ⟨rest, hrest⟩⟩
    · rintro ⟨⟨entry, hentry⟩, hwell⟩
      obtain ⟨rest, hrest⟩ := (ih entry).mpr hwell
      exact ⟨_, entry, rest, hentry, hrest, rfl⟩

theorem makeHeader_of_parseEntries (h : parseEntries pos buf = .ok entries) :
    makeHeader entries = .ok buf := by
  induction pos, buf using parseEntries.induct generalizing entries with
  | case1 pos =>
    rw [parseEntries, dif_pos rfl] at h
    cases h
    rfl
  | case2 pos buf hne ih =>
    obtain ⟨entry, rest, hentry, hrest, rfl⟩ := (parseEntries_ok hne).mp h
    simp only [makeHeader, headerEntry_of_parseHeaderEntry hentry, ih entry hrest]
    simp [bind, Except.bind, pure, Except.pure]

theorem offset_of_relocate {blobs : List Blob} {i : Nat} (h : (relocate pos blobs)[i]? = some b) :
    b.offset = pos + ((blobs.take i).map Blob.length).sum := by
  induction blobs generalizing pos i with
  | nil => simp [relocate] at h
  | cons first rest ih =>
    cases i with
    | zero =>
      simp only [relocate, getElem?_cons_zero, Option.some.injEq] at h
      simp [← h]
    | succ i =>
      rw [relocate, getElem?_cons_succ] at h
      rw [ih h]
      simp [add_assoc]

theorem offset_of_parseEntries (h : parseEntries 0 buf = .ok entries) {i : Nat}
    (hb : entries[i]? = some b) : b.offset = ((entries.take i).map Blob.length).sum := by
  rw [← (parseEntries_spec h).1] at hb
  have hoffset := offset_of_relocate hb
  rwa [zero_add] at hoffset

/-- What is read from a header is all that is in it. -/
theorem parse_inverts_makeHeader :
    (∀ buf : Bytes, (∃ entries, parseEntries 0 buf = .ok entries) ↔
      buf.length % entrySize = 0 ∧ ∀ i, i * entrySize < buf.length →
        buf[i * entrySize]? = some 0 ∨ buf[i * entrySize]? = some 1) ∧
    (∀ buf entries, parseEntries 0 buf = .ok entries →
      (∀ i b, entries[i]? = some b →
        b.offset = ((entries.take i).map Blob.length).sum) ∧
      makeHeader entries = .ok buf) ∧
    ∀ buf buf' entries, parseEntries 0 buf = .ok entries →
      parseEntries 0 buf' = .ok entries → buf = buf' := by
  refine ⟨?_, ?_, ?_⟩
  · intro buf
    rw [parseEntries_isOk]
    exact ⟨fun h => ⟨h.dvd, h.types⟩, fun h => ⟨h.1, h.2⟩⟩
  · intro buf entries h
    exact ⟨fun i b hb => offset_of_parseEntries h hb, makeHeader_of_parseEntries h⟩
  · intro buf buf' entries h h'
    have hsame := (makeHeader_of_parseEntries h).symm.trans (makeHeader_of_parseEntries h')
    cases hsame
    rfl

def sampleHeader : Bytes := [1, 5, 0, 0, 0] ++ List.replicate 32 7

theorem parse_inverts_makeHeader_sample :
    ∃ entries, parseEntries 0 sampleHeader = .ok entries ∧
      makeHeader entries = .ok sampleHeader := by
  have htypes : ∀ i, i * entrySize < sampleHeader.length → sampleHeader[i * entrySize]? = some 0 ∨
        sampleHeader[i * entrySize]? = some 1 := by
    intro i hi
    have hzero : i = 0 := by
      change i * 37 < 37 at hi
      omega
    rw [hzero]
    exact Or.inr rfl
  obtain ⟨entries, hentries⟩ := (parse_inverts_makeHeader.1 sampleHeader).mpr ⟨by decide, htypes⟩
  exact ⟨entries, hentries, (parse_inverts_makeHeader.2.1 _ _ hentries).2⟩

end Rapi.Pack
