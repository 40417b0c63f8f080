import Rapi.Pack.Packer

/-!
# Reading pack files

`List` reads the header of a pack from the end of the file.  The first request
fetches the length field together with a few entries, and only a header with
more entries causes a second request.  The offsets of the blobs are not stored;
they are recomputed from the lengths.
-/

namespace Rapi.Pack

open Foundation Crypto Restic List

/-- We require at least one entry in the header, and one blob for a pack file. -/
def minFileSize : Nat := entrySize + extension + headerLengthSize

/-- Number of header entries to download as part of the header-length request. -/
def eagerEntries : Nat := 15

/-- Read from a file: a read is complete or it fails.  Nothing is read into an empty
buffer, which is no failure behind the end of the file either. -/
def readAt (rd : Bytes) (off length : Nat) : Except Error Bytes :=
  if off + length ≤ rd.length ∨ length = 0 then .ok (slice rd off length)
  else .error .eof

theorem readAt_ok {rd : Bytes} {off length : Nat} (h : off + length ≤ rd.length) :
    readAt rd off length = .ok (slice rd off length) := if_pos (.inl h)

theorem exists_readAt_iff {rd : Bytes} {off length : Nat} :
    (∃ data, readAt rd off length = .ok data) ↔ off + length ≤ rd.length ∨ length = 0 := by
  unfold readAt
  split
  · rename_i hread
    exact iff_of_true ⟨_, rfl⟩ hread
  · rename_i hread
    exact iff_of_false (by rintro ⟨_, ⟨⟩⟩) hread

theorem length_of_readAt {rd data : Bytes} {off length : Nat}
    (h : readAt rd off length = .ok data) : data.length = length := by
  unfold readAt at h
  split at h
  · rename_i hread
    cases h
    rcases hread with hbounds | rfl
    · exact slice_length hbounds
    · simp [slice]
  · cases h

/--
Read up to `max` records, returning the raw header and the total number of
records.  If the header contains fewer than `max` entries, the header is
truncated to the appropriate size.
-/
def readRecords (rd : Bytes) (size max : Nat) : Except Error (Bytes × Nat) := do
  let wanted := max * entrySize + extension + headerLengthSize
  let bufsize := if wanted > size then size else wanted
  let b ← readAt rd (size - bufsize) bufsize
  let hlen := uintOf (b.drop (b.length - headerLengthSize))
  let b := b.take (b.length - headerLengthSize)
  if hlen = 0 then throw (.invalidFile "header length is zero")
  else if hlen < extension then throw (.invalidFile "header length is too small")
  else if (hlen - extension) % entrySize ≠ 0 then
    throw (.invalidFile "header length is invalid")
  else if hlen > size - headerLengthSize then
    throw (.invalidFile "header is larger than file")
  else if hlen > maxHeaderSize then
    throw (.invalidFile "header is larger than maxHeaderSize")
  else
    let total := (hlen - extension) / entrySize
    if total < max then return (b.drop (b.length - hlen), total)
    else return (b, total)

def readHeader (rd : Bytes) (size : Nat) : Except Error Bytes := do
  if size < minFileSize then throw (.invalidFile "file is too small")
  let (b, c) ← readRecords rd size eagerEntries
  if c ≤ eagerEntries then return b
  let (b, _) ← readRecords rd size c
  return b

def parseHeaderEntry (p : Bytes) : Except Error Blob :=
  if h : p.length < entrySize then .error (.bufferTooShort p.length)
  else
    let id : ID := ⟨slice p (1 + headerLengthSize) idSize, slice_length (Nat.le_of_not_lt h)⟩
    let length := uintOf (slice p 1 headerLengthSize)
    match p.headD 0 with
    | 0 => .ok { id := id, type := .data, length := length, offset := 0 }
    | 1 => .ok { id := id, type := .tree, length := length, offset := 0 }
    | byte => .error (.invalidType byte)

/-- The loop of `List` over the decrypted header; `pos` is the next offset. -/
def parseEntries (pos : Nat) (buf : Bytes) : Except Error (List Blob) :=
  if _hne : buf = [] then .ok []
  else do
    let entry ← parseHeaderEntry buf
    let rest ← parseEntries (pos + entry.length) (buf.drop entrySize)
    return { entry with offset := pos } :: rest
termination_by buf.length
decreasing_by
  have := List.length_pos_iff.mpr _hne
  simp only [List.length_drop, entrySize]
  omega

/--
`List` returns the entries of a pack file and the length of the header,
including the length field and the crypto overhead.
-/
def list (k : Key) (rd : Bytes) (size : Nat) : Except Error (List Blob × Nat) := do
  let buf ← readHeader rd size
  if buf.length < ivSize + macSize then throw .invalidHeaderTooSmall
  let hdrSize := headerLengthSize + buf.length
  match k.open (buf.take ivSize) (buf.drop ivSize) with
  | .error reason => throw (.openHeader reason)
  | .ok plain => do
      let entries ← parseEntries 0 plain
      return (entries, hdrSize)

/-! ## The loop over the header entries -/

/-- The given entries with the offsets that a reader computes for them. -/
def relocate (pos : Nat) : List Blob → List Blob
  | [] => []
  | b :: rest => { b with offset := pos } :: relocate (pos + b.length) rest

theorem relocate_entriesFrom (offset : Nat) (additions : List Addition) :
    relocate offset (entriesFrom offset additions) = entriesFrom offset additions := by
  induction additions generalizing offset with
  | nil => rfl
  | cons a rest ih => simp [entriesFrom, relocate, ih]

theorem relocate_append (pos : Nat) (blobs : List Blob) (b : Blob) :
    relocate pos (blobs ++ [b]) = relocate pos blobs ++
      [{ b with offset := pos + (blobs.map Blob.length).sum }] := by
  induction blobs generalizing pos with
  | nil => rfl
  | cons first rest ih => simp [relocate, ih, Nat.add_assoc]

theorem Packer.Filled.relocate_blobs {p : Packer} (hp : p.Filled) :
    relocate 0 p.blobs = p.blobs := by
  induction hp with
  | new => rfl
  | @add p hp t id data fault ih =>
    rw [Packer.add, relocate_append, ih, Nat.zero_add, ← hp.bytes_eq.1]

variable {b : Blob} {entries blobs : List Blob} {k : Key}

theorem length_of_parseHeaderEntry {p : Bytes} (h : parseHeaderEntry p = .ok b) :
    b.length < 2 ^ 32 := by
  have hfield : uintOf (slice p 1 headerLengthSize) < 2 ^ 32 := by
    refine (uintOf_lt _).trans_le ?_
    calc 256 ^ (slice p 1 headerLengthSize).length ≤ 256 ^ headerLengthSize :=
          Nat.pow_le_pow_right (by decide) (length_take_le _ _)
      _ = 2 ^ 32 := by decide
  unfold parseHeaderEntry at h
  split at h
  · cases h
  · dsimp only at h
    split at h
    · cases h
      exact hfield
    · cases h
      exact hfield
    · cases h

theorem parseEntries_spec {pos : Nat} {buf : Bytes} (h : parseEntries pos buf = .ok entries) :
    relocate pos entries = entries ∧ ∀ b ∈ entries, b.length < 2 ^ 32 := by
  induction pos, buf using parseEntries.induct generalizing entries with
  | case1 pos =>
    rw [parseEntries, dif_pos rfl] at h
    cases h
    exact ⟨rfl, nofun⟩
  | case2 pos buf hne ih =>
    rw [parseEntries, dif_neg hne] at h
    cases hentry : parseHeaderEntry buf with
    | error err => simp [hentry, bind, Except.bind] at h
    | ok entry =>
      simp only [hentry, bind, Except.bind] at h
      cases hrest : parseEntries (pos + entry.length) (buf.drop entrySize) with
      | error err => simp [hrest] at h
      | ok rest =>
        rw [hrest] at h
        cases h
        obtain ⟨hrelocate, hlength⟩ := ih entry hrest
        have hfirst := length_of_parseHeaderEntry hentry
        rw [relocate, hrelocate, forall_mem_cons]
        exact ⟨rfl, hfirst, hlength⟩

theorem end_le_of_mem_relocate {pos : Nat} (h : b ∈ relocate pos blobs) :
    b.offset + b.length ≤ pos + (blobs.map (·.length)).sum := by
  induction blobs generalizing pos with
  | nil => cases h
  | cons first rest ih =>
    rw [relocate, mem_cons] at h
    rw [map_cons, sum_cons]
    rcases h with rfl | h
    · dsimp only
      omega
    · have := ih h
      omega

theorem parseHeaderEntry_headerEntry {entry : Bytes} (hentry : headerEntry b = .ok entry)
    (hlength : b.length < 2 ^ 32) (rest : Bytes) :
    parseHeaderEntry (entry ++ rest) = .ok { b with offset := 0 } := by
  have hsize := length_headerEntry hentry
  have hid := b.id.length_bytes
  have hnum : b.length % 256 ^ headerLengthSize = b.length := Nat.mod_eq_of_lt hlength
  have hshort : ¬ (entry ++ rest).length < entrySize := by simp [hsize]
  -- the slices for the ID and the length both lie inside the entry
  have hbytes : ∀ tag : UInt8,
      slice ((tag :: putUint headerLengthSize b.length ++ b.id.bytes) ++ rest)
        (1 + headerLengthSize) idSize = b.id.bytes := by
    intro tag
    have := slice_append_middle (tag :: putUint headerLengthSize b.length) b.id.bytes rest
    simpa [hid, Nat.add_comm] using this
  have hfield : ∀ tag : UInt8,
      slice ((tag :: putUint headerLengthSize b.length ++ b.id.bytes) ++ rest)
        1 headerLengthSize = putUint headerLengthSize b.length := by
    intro tag
    have := slice_append_middle [tag] (putUint headerLengthSize b.length) (b.id.bytes ++ rest)
    simpa using this
  unfold headerEntry at hentry
  split at hentry
  · rename_i htype
    cases hentry
    simp only [parseHeaderEntry, dif_neg hshort, hbytes, hfield, uintOf_putUint, hnum]
    simp [← htype]
  · rename_i htype
    cases hentry
    simp only [parseHeaderEntry, dif_neg hshort, hbytes, hfield, uintOf_putUint, hnum]
    simp [← htype]
  · cases hentry

theorem parseEntries_makeHeader {header : Bytes} (hheader : makeHeader blobs = .ok header)
    (hlength : ∀ b ∈ blobs, b.length < 2 ^ 32) (pos : Nat) :
    parseEntries pos header = .ok (relocate pos blobs) := by
  induction blobs generalizing header pos with
  | nil =>
    cases hheader
    rw [parseEntries]
    rfl
  | cons b blobs ih =>
    obtain ⟨entry, rest, hentry, hrest, rfl⟩ := makeHeader_cons hheader
    have hsize := length_headerEntry hentry
    have hne : entry ++ rest ≠ [] := by
      intro hnil
      have := congrArg length hnil
      simp [hsize, entrySize] at this
    have hparse := parseHeaderEntry_headerEntry hentry (hlength b (by simp)) rest
    have htail := ih hrest (fun b' hb' => hlength b' (by simp [hb'])) (pos + b.length)
    have hdrop : (entry ++ rest).drop entrySize = rest := by simp [← hsize]
    rw [parseEntries, dif_neg hne, hparse]
    simp only [bind, Except.bind, hdrop, htail]
    rfl

/-! ## Locating the header -/

/--
A file that ends with a header of `n` entries and its length field, as one
request sees it.
-/
theorem readRecords_file (area enc : Bytes) (n max : Nat)
    (henc : enc.length = n * entrySize + extension) (hfits : enc.length < 2 ^ 32) :
    readRecords (area ++ enc ++ putUint headerLengthSize enc.length)
        (area ++ enc ++ putUint headerLengthSize enc.length).length max =
      if enc.length > maxHeaderSize then
        .error (.invalidFile "header is larger than maxHeaderSize")
      else
        .ok (if n < max then enc
          else (area ++ enc).drop (area.length + enc.length -
            min (area.length + enc.length) (max * entrySize + extension)),
          n) := by
  set field := putUint headerLengthSize enc.length with hfield
  set file := area ++ enc ++ field with hfile
  set wanted := max * entrySize + extension + headerLengthSize with hwanted
  set bufsize := if wanted > file.length then file.length else wanted with hbufsize
  have hfieldLength : field.length = headerLengthSize := by simp [hfield]
  have hfileLength : file.length = area.length + enc.length + headerLengthSize := by
    simp [hfile, hfieldLength]
    omega
  have hbuf : bufsize ≤ file.length := by
    rw [hbufsize]
    split <;> omega
  have hbuf4 : headerLengthSize ≤ bufsize := by
    rw [hbufsize, hfileLength, hwanted]
    split <;> omega
  have hread : readAt file (file.length - bufsize) bufsize =
      .ok (file.drop (file.length - bufsize)) := by
    have hend : file.length - bufsize + bufsize = file.length := by omega
    rw [readAt_ok (le_of_eq hend), slice_to_end hend]
  have hdrop : file.drop (file.length - bufsize) =
      (area ++ enc).drop (file.length - bufsize) ++ field := by
    rw [hfile, drop_append_of_le_length]
    simp only [length_append, hfieldLength]
    omega
  -- the length field is the last four bytes of what was read
  have hnum : uintOf field = enc.length := by
    rw [hfield, uintOf_putUint, Nat.mod_eq_of_lt]
    exact hfits
  have hlast : (file.drop (file.length - bufsize)).drop
      ((file.drop (file.length - bufsize)).length - headerLengthSize) = field := by
    rw [hdrop]
    simp [hfieldLength]
  have hfirst : (file.drop (file.length - bufsize)).take
      ((file.drop (file.length - bufsize)).length - headerLengthSize) =
        (area ++ enc).drop (file.length - bufsize) := by
    rw [hdrop]
    simp [hfieldLength]
  have htotal : (enc.length - extension) / entrySize = n := by
    rw [henc, Nat.add_sub_cancel]
    exact Nat.mul_div_cancel n (by decide)
  have hmod : (enc.length - extension) % entrySize = 0 := by
    rw [henc, Nat.add_sub_cancel]
    exact Nat.mul_mod_left n entrySize
  have hlarge : extension ≤ enc.length := by omega
  have hext : 0 < extension := by decide
  have hdropLength : ((area ++ enc).drop (file.length - bufsize)).length =
      bufsize - headerLengthSize := by
    simp only [length_drop, length_append]
    omega
  have hstart : file.length - bufsize = area.length + enc.length -
      min (area.length + enc.length) (max * entrySize + extension) := by
    rw [hbufsize, hfileLength, hwanted]
    split <;> omega
  have hwhole : n < max → ((area ++ enc).drop (file.length - bufsize)).drop
      (bufsize - headerLengthSize - enc.length) = enc := by
    intro hlt
    have hmul : n * entrySize ≤ max * entrySize := Nat.mul_le_mul_right _ hlt.le
    have hcover : enc.length + headerLengthSize ≤ bufsize := by
      rw [hbufsize, hfileLength, hwanted]
      split <;> omega
    have hskip : file.length - bufsize +
        (bufsize - headerLengthSize - enc.length) = area.length := by omega
    rw [drop_drop, hskip, drop_left]
  unfold readRecords
  simp only [← hwanted, ← hbufsize, hread, bind, Except.bind, hlast, hnum,
    hfirst, htotal, hmod, hdropLength]
  rw [if_neg (by omega), if_neg (by omega), if_neg (by simp), if_neg (by omega)]
  by_cases hmax : enc.length > maxHeaderSize
  · rw [if_pos hmax, if_pos hmax]
    rfl
  · rw [if_neg hmax, if_neg hmax]
    by_cases hlt : n < max
    · rw [if_pos hlt, if_pos hlt, hwhole hlt]
      rfl
    · rw [if_neg hlt, if_neg hlt, hstart]
      rfl

/--
The first component is what one request returns: the header itself, unless it
has more than `max` entries.
-/
theorem readRecords_eq (area enc : Bytes) (n max : Nat)
    (henc : enc.length = n * entrySize + extension) (hmax : enc.length ≤ maxHeaderSize) :
    ∃ b, readRecords (area ++ enc ++ putUint headerLengthSize enc.length)
        (area ++ enc ++ putUint headerLengthSize enc.length).length max = .ok (b, n) ∧
      (n ≤ max → b = enc) := by
  have hread := readRecords_file area enc n max henc (lt_of_le_of_lt hmax (by decide))
  rw [if_neg (Nat.not_lt.mpr hmax)] at hread
  refine ⟨_, hread, fun hle => ?_⟩
  by_cases hlt : n < max
  · rw [if_pos hlt]
  · have hn : max = n := by omega
    have hskip : area.length + enc.length - min (area.length + enc.length)
        (max * entrySize + extension) = area.length := by
      rw [hn, ← henc, Nat.min_eq_right (Nat.le_add_left _ _)]
      omega
    rw [if_neg hlt, hskip, drop_left]

theorem readHeader_file (area enc : Bytes) (n : Nat) (hn : 0 < n)
    (henc : enc.length = n * entrySize + extension) (hfits : enc.length < 2 ^ 32) :
    readHeader (area ++ enc ++ putUint headerLengthSize enc.length)
        (area ++ enc ++ putUint headerLengthSize enc.length).length =
      if enc.length > maxHeaderSize then
        .error (.invalidFile "header is larger than maxHeaderSize")
      else .ok enc := by
  have hsize : ¬ (area ++ enc ++ putUint headerLengthSize enc.length).length < minFileSize := by
    have : entrySize ≤ n * entrySize := Nat.le_mul_of_pos_left _ hn
    simp only [length_append, length_putUint, minFileSize]
    omega
  unfold readHeader
  rw [if_neg hsize]
  by_cases hmax : enc.length > maxHeaderSize
  · rw [if_pos hmax, readRecords_file area enc n eagerEntries henc hfits, if_pos hmax]
    rfl
  · obtain ⟨b, hread, hb⟩ := readRecords_eq area enc n eagerEntries henc (Nat.not_lt.mp hmax)
    obtain ⟨b', hread', hb'⟩ := readRecords_eq area enc n n henc (Nat.not_lt.mp hmax)
    rw [if_neg hmax, hread]
    simp only [bind, Except.bind, pure, Except.pure]
    by_cases hle : n ≤ eagerEntries
    · rw [if_pos hle, hb hle]
    · rw [if_neg hle, hread', hb' le_rfl]

theorem readHeader_eq (area enc : Bytes) (n : Nat) (hn : 0 < n)
    (henc : enc.length = n * entrySize + extension) (hmax : enc.length ≤ maxHeaderSize) :
    readHeader (area ++ enc ++ putUint headerLengthSize enc.length)
      (area ++ enc ++ putUint headerLengthSize enc.length).length = .ok enc := by
  rw [readHeader_file area enc n hn henc (lt_of_le_of_lt hmax (by decide)),
    if_neg (Nat.not_lt.mpr hmax)]

theorem list_spec {rd : Bytes} {size hdrSize : Nat} (h : list k rd size = .ok (entries, hdrSize)) :
    relocate 0 entries = entries ∧ ∀ b ∈ entries, b.length < 2 ^ 32 := by
  unfold list at h
  cases hread : readHeader rd size with
  | error err => simp [hread, bind, Except.bind] at h
  | ok buf =>
    simp only [hread, bind, Except.bind] at h
    split at h
    · cases h
    · split at h
      · cases h
      · rename_i plain _
        cases hparse : parseEntries 0 plain with
        | error err => simp [hparse] at h
        | ok parsed =>
          simp only [hparse] at h
          cases h
          exact parseEntries_spec hparse

theorem hdrSize_of_list_isPack {area content : Bytes} {hdrSize : Nat}
    (h : IsPack k blobs area content) (hne : blobs ≠ [])
    (hfits : blobs.length * entrySize + extension < 2 ^ 32)
    (hlist : list k content content.length = .ok (entries, hdrSize)) :
    hdrSize = headerSize + blobs.length * entrySize := by
  obtain ⟨nonce, header, hmake, rfl⟩ := h
  have henc : (k.encrypt nonce header).length = blobs.length * entrySize + extension := by
    rw [Key.length_encrypt, length_makeHeader hmake]
  have hread := readHeader_file area (k.encrypt nonce header) blobs.length
    (length_pos_iff.mpr hne) henc (by rw [henc]; exact hfits)
  rw [Key.length_encrypt, append_assoc] at hread
  unfold list at hlist
  rw [hread] at hlist
  by_cases hmax : header.length + extension > maxHeaderSize
  · rw [if_pos hmax] at hlist
    cases hlist
  · rw [if_neg hmax] at hlist
    simp only [bind, Except.bind] at hlist
    split at hlist
    · cases hlist
    · split at hlist
      · cases hlist
      · split at hlist
        · cases hlist
        · cases hlist
          rw [henc, headerSize]
          omega

theorem list_isPack {area content : Bytes} (h : IsPack k blobs area content)
    (hne : blobs ≠ []) (hlength : ∀ b ∈ blobs, b.length < 2 ^ 32)
    (hheader : blobs.length * entrySize + extension ≤ maxHeaderSize) :
    list k content content.length = .ok (relocate 0 blobs,
      headerLengthSize + (blobs.length * entrySize + extension)) := by
  obtain ⟨nonce, header, hmake, rfl⟩ := h
  have henc : (k.encrypt nonce header).length = blobs.length * entrySize + extension := by
    rw [Key.length_encrypt, length_makeHeader hmake]
  have hread := readHeader_eq area (k.encrypt nonce header) blobs.length
    (length_pos_iff.mpr hne) henc (by rw [henc]; exact hheader)
  have hopen : k.open ((k.encrypt nonce header).take ivSize)
      ((k.encrypt nonce header).drop ivSize) = .ok header := by
    rw [Key.take_encrypt, Key.drop_encrypt, Key.open_seal]
  have hlong : ¬ (k.encrypt nonce header).length < ivSize + macSize := by simp [extension]
  rw [Key.length_encrypt, append_assoc] at hread
  unfold list
  rw [hread]
  simp only [bind, Except.bind, if_neg hlong, hopen, parseEntries_makeHeader hmake hlength 0]
  rw [henc]
  rfl

end Rapi.Pack
