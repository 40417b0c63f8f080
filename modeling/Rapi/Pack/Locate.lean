import Rapi.Pack.Reader

/-!
# Locating the header of any file

A file is any byte string here, not one that a packer has written.  The last
four bytes say how long the header is; which of these numbers are accepted, and
which bytes are then returned, does not depend on how many entries the first
request asks for.  The functions are given a second time with the bounds that
slices and reads are checked against: out of bounds there is no result.
-/

namespace Rapi.Pack

open Foundation Option List Nat Crypto

/-! ## Reading with bounds -/

/-- The order of the checks is that of the source. -/
def lengthError (hlen : Nat) (size : Int) : Option Error :=
  if hlen = 0 then some (.invalidFile "header length is zero")
  else if hlen < extension then some (.invalidFile "header length is too small")
  else if (hlen - extension) % entrySize ≠ 0 then
    some (.invalidFile "header length is invalid")
  else if (hlen : Int) > size - headerLengthSize then
    some (.invalidFile "header is larger than file")
  else if hlen > maxHeaderSize then
    some (.invalidFile "header is larger than maxHeaderSize")
  else none

def readRecordsBounded (rd : Bytes) (size : Int) (max : Nat) :
    Option (Except Error (Bytes × Nat)) := do
  let wanted : Int := max * entrySize + extension + headerLengthSize
  let bufsize := if wanted > size then size else wanted
  let off := size - bufsize
  if bufsize < 0 ∨ off < 0 ∨ off + bufsize > rd.length then none
  else
    let b := slice rd off.toNat bufsize.toNat
    let field ← sliceFrom? b (b.length - headerLengthSize)
    let b ← sliceTo? b (b.length - headerLengthSize)
    let hlen := uintOf field
    match lengthError hlen size with
    | some err => return .error err
    | none =>
      let total := (hlen - extension) / entrySize
      if total < max then
        let b ← sliceFrom? b (b.length - hlen)
        return .ok (b, total)
      else return .ok (b, total)

/-- `eager` is the number of entries in the first request. -/
def readHeaderBounded (eager : Nat) (rd : Bytes) (size : Int) : Option (Except Error Bytes) := do
  if size < minFileSize then return .error (.invalidFile "file is too small")
  else
    match ← readRecordsBounded rd size eager with
    | .error err => return .error err
    | .ok (b, c) =>
      if c ≤ eager then return .ok b
      else
        match ← readRecordsBounded rd size c with
        | .error err => return .error err
        | .ok (b, _) => return .ok b

/-! ## One request -/

/-- The number in the last four bytes. -/
def headerLength (rd : Bytes) : Nat := uintOf (rd.drop (rd.length - headerLengthSize))

/-- The bytes that one request asks for. -/
def requestSize (size max : Nat) : Nat := min size (max * entrySize + extension + headerLengthSize)

variable {rd : Bytes}

theorem readRecords_eq_request (h4 : headerLengthSize ≤ rd.length) (max : Nat) :
    readRecords rd rd.length max = match lengthError (headerLength rd) rd.length with
      | some err => .error err
      | none =>
        let b := slice rd (rd.length - requestSize rd.length max)
          (requestSize rd.length max - headerLengthSize)
        let total := (headerLength rd - extension) / entrySize
        .ok (if total < max then b.drop (b.length - headerLength rd) else b, total) := by
  set size := rd.length with hsize
  set bufsize := requestSize size max with hbufsize
  have hbuf : (if max * entrySize + extension + headerLengthSize > size
      then size
      else max * entrySize + extension + headerLengthSize) = bufsize := by
    rw [hbufsize, requestSize]
    split <;> omega
  have hle : bufsize ≤ size := min_le_left _ _
  have hfour : headerLengthSize ≤ bufsize := by
    rw [hbufsize, requestSize]
    omega
  have hread : readAt rd (size - bufsize) bufsize = .ok (rd.drop (size - bufsize)) := by
    have hend : size - bufsize + bufsize = rd.length := by omega
    rw [readAt_ok (le_of_eq hend), slice_to_end hend]
  have hlength : (rd.drop (size - bufsize)).length = bufsize := by
    rw [length_drop]
    omega
  -- The length field is the end of the file, however much was read.
  have hfield : uintOf ((rd.drop (size - bufsize)).drop
      (bufsize - headerLengthSize)) = headerLength rd := by
    rw [drop_drop, headerLength]
    congr 2
    omega
  have hcast : ((headerLength rd : Int) > (size : Int) - headerLengthSize) ↔
      headerLength rd > size - headerLengthSize := by omega
  simp only [readRecords, hbuf, hread, hlength, hfield, bind, Except.bind]
  simp only [lengthError, hcast]
  split_ifs <;> rfl

theorem lengthError_eq_none {hlen size : Nat} (h4 : headerLengthSize ≤ size) :
    lengthError hlen size = none ↔
      extension ≤ hlen ∧ hlen ≤ min (size - headerLengthSize) maxHeaderSize ∧
        (hlen - extension) % entrySize = 0 := by
  have hpos : 0 < extension := by decide
  unfold lengthError
  rw [le_min_iff]
  split_ifs <;> simp <;> omega

theorem headerLength_eq (h4 : headerLengthSize ≤ rd.length)
    (h : lengthError (headerLength rd) rd.length = none) : headerLength rd =
      (headerLength rd - extension) / entrySize * entrySize +
        extension := by
  obtain ⟨hlow, -, hmod⟩ := (lengthError_eq_none h4).mp h
  have hdiv := div_add_mod' (headerLength rd - extension) entrySize
  omega

theorem readRecordsBounded_eq (h4 : headerLengthSize ≤ rd.length) (max : Nat) :
    readRecordsBounded rd rd.length max = some (readRecords rd rd.length max) := by
  rw [readRecords_eq_request h4]
  set bufsize := requestSize rd.length max with hbufsize
  have hbuf : (if (max * entrySize + extension + headerLengthSize : Int) >
      rd.length then (rd.length : Int)
      else max * entrySize + extension + headerLengthSize) = bufsize := by
    rw [hbufsize, requestSize]
    split <;> omega
  have hle : bufsize ≤ rd.length := min_le_left _ _
  have hfour : headerLengthSize ≤ bufsize := by
    rw [hbufsize, requestSize]
    omega
  have hoff : ((rd.length : Int) - bufsize).toNat = rd.length - bufsize := by omega
  set b := slice rd (rd.length - bufsize) bufsize with hb
  have hlength : b.length = bufsize := slice_length (by omega)
  have hfield : uintOf (b.drop (b.length - headerLengthSize)) =
      headerLength rd := by
    rw [hb, slice_to_end (by omega), drop_drop, headerLength]
    congr 2
    rw [length_drop]
    omega
  have htake : b.take (b.length - headerLengthSize) =
      slice rd (rd.length - bufsize) (bufsize - headerLengthSize) := by
    rw [hlength, hb, slice, slice, take_take, min_eq_left (by omega)]
  unfold readRecordsBounded
  simp only [hbuf, hoff, Int.toNat_natCast]
  rw [if_neg (by omega), ← hb, sliceFrom?_sub (by omega), sliceTo?_sub (by omega)]
  simp only [bind_eq_bind, bind_some, hfield, htake]
  cases herror : lengthError (headerLength rd) rd.length with
  | some err => rfl
  | none =>
    have hshort : (headerLength rd - extension) / entrySize < max →
        headerLength rd ≤ (slice rd (rd.length - bufsize) (bufsize - headerLengthSize)).length := by
      intro hlt
      have hmul : (headerLength rd - extension) / entrySize * entrySize ≤
          max * entrySize := mul_le_mul_right _ hlt.le
      have hentries := headerLength_eq h4 herror
      have hfits := ((lengthError_eq_none h4).mp herror).2.1
      rw [slice_length (by omega), hbufsize, requestSize]
      omega
    dsimp only
    split
    · rename_i hlt
      rw [sliceFrom?_sub (hshort hlt)]
      rfl
    · rfl

/-! ## The header -/

def headerBytes (rd : Bytes) : Bytes :=
  slice rd (rd.length - headerLengthSize - headerLength rd) (headerLength rd)

theorem readRecords_of_le {max : Nat} (h4 : headerLengthSize ≤ rd.length)
    (h : lengthError (headerLength rd) rd.length = none)
    (hmax : (headerLength rd - extension) / entrySize ≤ max) :
    readRecords rd rd.length max = .ok (headerBytes rd,
      (headerLength rd - extension) / entrySize) := by
  have hentries := headerLength_eq h4 h
  have hfits := ((lengthError_eq_none h4).mp h).2.1
  have hmul : (headerLength rd - extension) / entrySize * entrySize ≤
      max * entrySize := mul_le_mul_right _ hmax
  rw [readRecords_eq_request h4, h]
  set bufsize := requestSize rd.length max with hbufsize
  have hcover : headerLength rd ≤ bufsize - headerLengthSize ∧
      headerLengthSize ≤ bufsize ∧ bufsize ≤ rd.length := by
    rw [hbufsize, requestSize]
    omega
  dsimp only
  congr 2
  split
  · -- more was read than the header
    rw [slice_length (by omega), headerBytes, slice, drop_take, drop_drop, slice]
    congr 1
    · omega
    · congr 1
      omega
  · -- exactly the header was read
    rename_i hlt
    have heq : max = (headerLength rd - extension) / entrySize := by omega
    have hexact : bufsize = headerLength rd + headerLengthSize := by
      rw [hbufsize, requestSize, heq]
      omega
    rw [headerBytes, hexact]
    congr 1
    · omega

theorem readHeaderBounded_of_small (hsize : rd.length < minFileSize) (eager : Nat) :
    readHeaderBounded eager rd rd.length = some (.error (.invalidFile "file is too small")) := by
  unfold readHeaderBounded
  rw [if_pos (by omega)]
  rfl

theorem readHeaderBounded_of_error {err : Error} (hsize : minFileSize ≤ rd.length)
    (h : lengthError (headerLength rd) rd.length = some err) (eager : Nat) :
    readHeaderBounded eager rd rd.length = some (.error err) := by
  have h4 : headerLengthSize ≤ rd.length := le_trans (by decide) hsize
  have hread : readRecordsBounded rd rd.length eager = some (.error err) := by
    rw [readRecordsBounded_eq h4, readRecords_eq_request h4, h]
  unfold readHeaderBounded
  rw [if_neg (by omega), hread]
  rfl

theorem readHeaderBounded_of_ok (hsize : minFileSize ≤ rd.length)
    (h : lengthError (headerLength rd) rd.length = none) (eager : Nat) :
    readHeaderBounded eager rd rd.length = some (.ok (headerBytes rd)) := by
  have h4 : headerLengthSize ≤ rd.length := le_trans (by decide) hsize
  unfold readHeaderBounded
  rw [if_neg (by omega), readRecordsBounded_eq h4]
  set total := (headerLength rd - extension) / entrySize with htotal
  by_cases hle : total ≤ eager
  · rw [readRecords_of_le h4 h hle]
    simp only [bind_eq_bind, bind_some, ← htotal, if_pos hle]
    rfl
  · have hfirst : ∃ b, readRecords rd rd.length eager = .ok (b, total) := by
      rw [readRecords_eq_request h4, h]
      exact ⟨_, rfl⟩
    obtain ⟨b, hfirst⟩ := hfirst
    have hsecond : readRecordsBounded rd rd.length total = some (.ok (headerBytes rd, total)) := by
      rw [readRecordsBounded_eq h4, readRecords_of_le h4 h le_rfl]
    rw [hfirst]
    simp only [bind_eq_bind, bind_some, if_neg hle, hsecond]
    rfl

theorem readHeaderBounded_eager (rd : Bytes) :
    readHeaderBounded eagerEntries rd rd.length = some (readHeader rd rd.length) := by
  unfold readHeaderBounded readHeader
  by_cases hsize : rd.length < minFileSize
  · rw [if_pos (by omega), if_pos hsize]
    rfl
  · have h4 : headerLengthSize ≤ rd.length := le_trans (by decide) (not_lt.mp hsize)
    rw [if_neg (by omega), if_neg hsize, readRecordsBounded_eq h4]
    cases hfirst : readRecords rd rd.length eagerEntries with
    | error err => rfl
    | ok found =>
      obtain ⟨b, c⟩ := found
      simp only [bind_some, bind, Except.bind, pure, Except.pure, readRecordsBounded_eq h4]
      split
      · rfl
      · cases readRecords rd rd.length c <;> rfl

/-- The header of a file is found from the number in its last four bytes,
whatever the first request asks for. -/
theorem readHeader_locates (rd : Bytes) :
    (∀ eager, readHeaderBounded eager rd rd.length = some (readHeader rd rd.length)) ∧
    if 73 ≤ rd.length ∧ 32 ≤ headerLength rd ∧
        headerLength rd ≤ min (rd.length - 4) (16 * 1024 * 1024) ∧
        37 ∣ headerLength rd - 32 then
      readHeader rd rd.length =
        .ok (slice rd (rd.length - 4 - headerLength rd) (headerLength rd))
    else ∃ err, readHeader rd rd.length = .error err := by
  have heager := readHeaderBounded_eager rd
  by_cases hsize : rd.length < minFileSize
  · have hsmall := readHeaderBounded_of_small hsize
    rw [hsmall eagerEntries, Option.some.injEq] at heager
    rw [← heager, if_neg (fun h => absurd h.1 (not_le.mpr hsize))]
    exact ⟨hsmall, _, rfl⟩
  · have hlarge : 73 ≤ rd.length := not_lt.mp hsize
    have hnone : lengthError (headerLength rd) rd.length = none ↔ _ :=
      lengthError_eq_none (le_trans (by decide) hlarge)
    cases herror : lengthError (headerLength rd) rd.length with
    | some err =>
      have hbounded := readHeaderBounded_of_error hlarge herror
      rw [hbounded eagerEntries, Option.some.injEq] at heager
      rw [← heager, if_neg]
      · exact ⟨hbounded, err, rfl⟩
      · rintro ⟨-, hlow, hhigh, hdvd⟩
        have hok := hnone.mpr ⟨hlow, hhigh, mod_eq_zero_of_dvd hdvd⟩
        rw [herror] at hok
        cases hok
    | none =>
      have hbounded := readHeaderBounded_of_ok hlarge herror
      rw [hbounded eagerEntries, Option.some.injEq] at heager
      obtain ⟨hlow, hhigh, hmod⟩ := hnone.mp herror
      rw [← heager, if_pos ⟨hlarge, hlow, hhigh, dvd_of_mod_eq_zero hmod⟩]
      exact ⟨hbounded, rfl⟩

end Rapi.Pack
