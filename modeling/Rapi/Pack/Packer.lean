import Rapi.Restic.Blob

/-!
# Writing pack files

A pack is the concatenation of its blobs, followed by an encrypted header with
one fixed-size entry for each blob and by the length of that header.  `Packer`
is the writer of the format.  Its `wr` field holds the bytes that the underlying
`io.Writer` has taken so far; a write may stop early with an error, and the
model is told so by a `WriteFault`.
-/

namespace Rapi.Pack

open Foundation Crypto Restic List

/-- Size of the header-length field at the end of the file; it is a uint32. -/
def headerLengthSize : Nat := 4

/-- One byte for the type, four for the length, and the ID. -/
def entrySize : Nat := 1 + headerLengthSize + idSize

/-- The constant overhead of a header, independent of the number of entries. -/
def headerSize : Nat := headerLengthSize + Crypto.extension

def maxHeaderSize : Nat := 16 * 1024 * 1024

inductive Error where
  | write
  | invalidBlobType (type : BlobType)
  | wrongNumberOfBytes
  | invalidFile (message : String)
  | eof
  | invalidHeaderTooSmall
  | openHeader (reason : OpenError)
  | bufferTooShort (size : Nat)
  | invalidType (byte : UInt8)
  deriving DecidableEq, Repr

/--
What a write does: `none` takes all bytes, `some n` stops with an error after
at most `n` of them.
-/
abbrev WriteFault := Option Nat

/-- The number of bytes that a write takes and whether it reports an error. -/
def writeResult (data : Bytes) : WriteFault → Nat × Bool
  | none => (data.length, false)
  | some n => (min n data.length, true)

structure Packer where
  blobs : List Blob
  bytes : Nat
  wr : Bytes
  deriving DecidableEq

namespace Packer

def new : Packer := ⟨[], 0, []⟩

/--
`Add`: the blob is recorded with the number of bytes the writer took, also when
the write failed.  Returned are the new packer, that number and the error.
-/
def add (p : Packer) (t : BlobType) (id : ID) (data : Bytes)
    (fault : WriteFault) : Packer × Nat × Option Error :=
  let (n, failed) := writeResult data fault
  let c : Blob := { id := id, type := t, length := n, offset := p.bytes }
  ({ blobs := p.blobs ++ [c], bytes := p.bytes + n, wr := p.wr ++ data.take n },
    n, if failed then some .write else none)

def size (p : Packer) : Nat := p.bytes

end Packer

def headerEntry (b : Blob) : Except Error Bytes :=
  match b.type with
  | .data => .ok (0 :: putUint headerLengthSize b.length ++ b.id.bytes)
  | .tree => .ok (1 :: putUint headerLengthSize b.length ++ b.id.bytes)
  | .invalid => .error (.invalidBlobType b.type)

def makeHeader : List Blob → Except Error Bytes
  | [] => .ok []
  | b :: blobs => do
      let entry ← headerEntry b
      let rest ← makeHeader blobs
      return entry ++ rest

namespace Packer

/--
`Finalize` appends the encrypted header and its length.  A failed write leaves
its bytes in the file, but `bytes` only changes when both writes succeed.
-/
def finalize (k : Key) (nonce : Nonce) (headerFault lengthFault : WriteFault)
    (p : Packer) : Packer × Except Error Nat :=
  match makeHeader p.blobs with
  | .error err => (p, .error err)
  | .ok header =>
    let encryptedHeader := k.encrypt nonce header
    let (n, failed) := writeResult encryptedHeader headerFault
    let p₁ := { p with wr := p.wr ++ encryptedHeader.take n }
    if failed then (p₁, .error .write)
    else
      let hdrBytes := ciphertextLength header.length
      if n ≠ hdrBytes then (p₁, .error .wrongNumberOfBytes)
      else
        let field := putUint headerLengthSize
          (ciphertextLength (p.blobs.length * entrySize))
        let (m, failed) := writeResult field lengthFault
        let p₂ := { p₁ with wr := p₁.wr ++ field.take m }
        if failed then (p₂, .error .write)
        else
          let bytesWritten := p.bytes + hdrBytes + headerLengthSize
          ({ p₂ with bytes := bytesWritten }, .ok bytesWritten)

end Packer

/-! ## What the writer leaves behind -/

structure Addition where
  type : BlobType
  id : ID
  data : Bytes
  deriving DecidableEq

def addAll (p : Packer) (additions : List Addition) : Packer :=
  additions.foldl (fun p a => (p.add a.type a.id a.data none).1) p

/-- The entries of the given additions, the first of them at `offset`. -/
def entriesFrom (offset : Nat) : List Addition → List Blob
  | [] => []
  | a :: rest =>
    { id := a.id, type := a.type, length := a.data.length, offset := offset } ::
      entriesFrom (offset + a.data.length) rest

def contents (additions : List Addition) : Bytes := additions.flatMap Addition.data

@[simp] theorem contents_cons (a : Addition) (rest : List Addition) :
    contents (a :: rest) = a.data ++ contents rest := by
  simp [contents]

@[simp] theorem length_entriesFrom (offset : Nat) (additions : List Addition) :
    (entriesFrom offset additions).length = additions.length := by
  induction additions generalizing offset with
  | nil => rfl
  | cons a rest ih => simp [entriesFrom, ih]

theorem addAll_eq (p : Packer) (additions : List Addition) : addAll p additions =
      { blobs := p.blobs ++ entriesFrom p.bytes additions
        bytes := p.bytes + (contents additions).length
        wr := p.wr ++ contents additions } := by
  induction additions generalizing p with
  | nil => simp [addAll, entriesFrom, contents]
  | cons a rest ih =>
    change addAll (p.add a.type a.id a.data none).1 rest = _
    rw [ih]
    simp [Packer.add, writeResult, entriesFrom, Nat.add_assoc]

theorem length_headerEntry {b : Blob} {entry : Bytes}
    (h : headerEntry b = .ok entry) : entry.length = entrySize := by
  have hid := b.id.length_bytes
  unfold headerEntry at h
  split at h
  · cases h
    simp [hid, entrySize]
    omega
  · cases h
    simp [hid, entrySize]
    omega
  · cases h

theorem makeHeader_cons {b : Blob} {blobs : List Blob} {header : Bytes}
    (h : makeHeader (b :: blobs) = .ok header) :
    ∃ entry rest, headerEntry b = .ok entry ∧ makeHeader blobs = .ok rest ∧
      header = entry ++ rest := by
  simp only [makeHeader] at h
  cases hentry : headerEntry b with
  | error err => simp [hentry, bind, Except.bind] at h
  | ok entry =>
    cases hrest : makeHeader blobs with
    | error err => simp [hentry, hrest, bind, Except.bind] at h
    | ok rest =>
      simp only [hentry, hrest, bind, Except.bind, pure, Except.pure, Except.ok.injEq] at h
      exact ⟨entry, rest, rfl, rfl, h.symm⟩

theorem length_makeHeader {blobs : List Blob} {header : Bytes} (h : makeHeader blobs = .ok header) :
    header.length = blobs.length * entrySize := by
  induction blobs generalizing header with
  | nil =>
    cases h
    rfl
  | cons b blobs ih =>
    obtain ⟨entry, rest, hentry, hrest, rfl⟩ := makeHeader_cons h
    simp only [length_append, length_cons, length_headerEntry hentry, ih hrest]
    ring

theorem exists_makeHeader {blobs : List Blob} (h : ∀ b ∈ blobs, b.type ≠ .invalid) :
    ∃ header, makeHeader blobs = .ok header := by
  induction blobs with
  | nil => exact ⟨[], rfl⟩
  | cons b blobs ih =>
    obtain ⟨rest, hrest⟩ := ih fun b' hb' => h b' (by simp [hb'])
    have hb := h b (by simp)
    cases htype : b.type with
    | invalid => exact absurd htype hb
    | data | tree => exact ⟨_, by simp [makeHeader, headerEntry, htype, hrest]; rfl⟩

variable {k : Key} {nonce : Nonce} {p : Packer}

theorem finalize_eq {header : Bytes} (h : makeHeader p.blobs = .ok header) :
    p.finalize k nonce none none =
      ({ blobs := p.blobs
         bytes := p.bytes + header.length + headerSize
         wr := p.wr ++ k.encrypt nonce header ++
          putUint headerLengthSize (header.length + extension) },
        .ok (p.bytes + header.length + headerSize)) := by
  have hlength := length_makeHeader h
  simp only [Packer.finalize, h, writeResult, Key.length_encrypt, ciphertextLength, ← hlength]
  simp [headerSize, take_of_length_le]
  omega

theorem Packer.blobs_finalize (p : Packer) (k : Key) (nonce : Nonce)
    (headerFault lengthFault : WriteFault) :
    (p.finalize k nonce headerFault lengthFault).1.blobs = p.blobs := by
  unfold Packer.finalize
  split
  · rfl
  · dsimp only
    split
    · rfl
    · split
      · rfl
      · split <;> rfl

/-- The blob area, and behind it the header that lists the blobs. -/
def IsPack (k : Key) (blobs : List Blob) (area content : Bytes) : Prop :=
  ∃ nonce header, makeHeader blobs = .ok header ∧
    content = area ++ (k.encrypt nonce header ++
      putUint headerLengthSize (header.length + extension))

theorem Packer.finalize_ok {p' : Packer} {headerFault lengthFault : WriteFault} {bytesWritten : Nat}
    (h : p.finalize k nonce headerFault lengthFault = (p', .ok bytesWritten)) :
    IsPack k p.blobs p.wr p'.wr ∧
      ∃ footer, p'.wr = p.wr ++ footer ∧ p'.bytes = p.bytes + footer.length := by
  cases headerFault with
  | some n =>
    unfold Packer.finalize at h
    split at h
    · cases h
    · simp [writeResult] at h
  | none =>
    cases lengthFault with
    | some n =>
      unfold Packer.finalize at h
      split at h
      · cases h
      · simp only [writeResult] at h
        split at h
        · cases h
        · split at h <;> simp at h
    | none =>
      cases hheader : makeHeader p.blobs with
      | error err => simp [Packer.finalize, hheader] at h
      | ok header =>
        rw [finalize_eq hheader] at h
        cases h
        refine ⟨⟨nonce, header, hheader, append_assoc _ _ _⟩, _, append_assoc _ _ _, ?_⟩
        simp [headerSize]
        omega

/-! ## Sizes -/

/-- Packers to which blobs have been added; some of the writes may have failed. -/
inductive Packer.Filled : Packer → Prop
  | new : Filled .new
  | add {p : Packer} (hp : Filled p) (t : BlobType) (id : ID) (data : Bytes)
      (fault : WriteFault) : Filled (p.add t id data fault).1

theorem writeResult_le (data : Bytes) (fault : WriteFault) :
    (writeResult data fault).1 ≤ data.length := by
  cases fault with
  | none => exact le_rfl
  | some n => exact Nat.min_le_right n data.length

theorem Packer.Filled.bytes_eq (hp : p.Filled) :
    p.bytes = (p.blobs.map Blob.length).sum ∧ p.bytes = p.wr.length := by
  induction hp with
  | new => exact ⟨rfl, rfl⟩
  | @add p _ t id data fault ih =>
    obtain ⟨hsum, hlength⟩ := ih
    have hle := writeResult_le data fault
    constructor
    · simp [Packer.add, hsum]
    · simp [Packer.add, hlength, Nat.min_eq_left hle]

theorem Packer.Filled.pairwise_blobs (hp : p.Filled) :
    p.blobs.Pairwise (fun b b' => b.offset + b.length ≤ b'.offset) ∧
      ∀ b ∈ p.blobs, b.offset + b.length ≤ p.bytes := by
  induction hp with
  | new => exact ⟨.nil, nofun⟩
  | @add p _ t id data fault ih =>
    obtain ⟨hpairwise, hends⟩ := ih
    constructor
    · refine pairwise_append.mpr ⟨hpairwise, pairwise_singleton _ _, ?_⟩
      intro b hb b' hb'
      rw [mem_singleton.mp hb']
      exact hends b hb
    · intro b hb
      rcases mem_append.mp hb with hb | hb
      · exact Nat.le_add_right_of_le (hends b hb)
      · rw [mem_singleton.mp hb]
        exact le_rfl

theorem Packer.Filled.nodup_blobs (hp : p.Filled)
    (hdata : ∀ b ∈ p.blobs, 0 < b.length) : p.blobs.Nodup := by
  refine List.Pairwise.imp_of_mem ?_ hp.pairwise_blobs.1
  rintro b b' hb - hle rfl
  have := hdata b hb
  omega

theorem Packer.Filled.covered (hp : p.Filled) {position : Nat} (hposition : position < p.bytes) :
    ∃ b ∈ p.blobs, b.offset ≤ position ∧ position < b.offset + b.length := by
  induction hp with
  | new => cases hposition
  | @add p _ t id data fault ih =>
    by_cases hold : position < p.bytes
    · obtain ⟨b, hb, hrange⟩ := ih hold
      exact ⟨b, mem_append_left _ hb, hrange⟩
    · exact ⟨_, mem_append_right _ (mem_singleton_self _), Nat.not_lt.mp hold, hposition⟩

theorem Packer.Filled.finalize_ok {p' : Packer} (hp : p.Filled)
    {headerFault lengthFault : WriteFault} {bytesWritten : Nat}
    (h : p.finalize k nonce headerFault lengthFault = (p', .ok bytesWritten)) :
    p'.wr.length = bytesWritten ∧ bytesWritten =
      headerSize + (p.blobs.map Blob.length).sum + p.blobs.length * entrySize := by
  obtain ⟨hsum, hlength⟩ := hp.bytes_eq
  obtain ⟨⟨_, header, hmake, hwr⟩, -⟩ := Packer.finalize_ok h
  have hheader := length_makeHeader hmake
  have hsize : bytesWritten = p.bytes + header.length + headerSize := by
    unfold Packer.finalize at h
    simp only [hmake] at h
    split at h
    · cases h
    · split at h
      · cases h
      · split at h
        · cases h
        · cases h
          simp only [ciphertextLength, headerSize]
          omega
  constructor
  · rw [hwr, hsize]
    simp only [length_append, Key.length_encrypt, length_putUint, headerSize]
    omega
  · omega

end Rapi.Pack
