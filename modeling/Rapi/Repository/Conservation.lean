import Rapi.Repository.SaveBlob

/-!
# Where the blobs are

A blob that was announced as new is pending until it is in the index.  In
between it belongs to a call of `SaveBlob`, alone or in a packer, or to a packer
in the list of a manager.  Tokens are what the calls own: the blobs and packers
they carry, the packers they gave up, the indexes they are about to save, and
the blobs they accepted.  A flush that fails puts packers back into the list,
which the last two tokens stand for.  `Sound` relates the tokens of all calls to
the state.
-/

namespace Rapi.Repository

open Foundation Crypto Restic Multiset Packer
open Pack (WriteFault)

/-! ## Tokens -/

inductive Token
  | announced (bh : BlobHandle)
  | duplicate (bh : BlobHandle)
  | blob (bh : BlobHandle)
  | packer (p : Packer)
  | finished (p : Packer)
  | dropped (p : Packer)
  | index (idx : Index)
  | broken
  | miscounted

def Packer.handles (p : Packer) : Multiset BlobHandle :=
  (p.packer.blobs.map Blob.toBlobHandle : List BlobHandle)

namespace Token

@[simp] def held : Token → Multiset BlobHandle
  | .blob bh => {bh}
  | .packer p => p.handles
  | .finished p => p.handles
  | .dropped p => p.handles
  | _ => 0

@[simp] def announcedHandle : Token → Multiset BlobHandle
  | .announced bh => {bh}
  | _ => 0

/-- The blob that a call has accepted. -/
@[simp] def savedHandle : Token → Multiset BlobHandle
  | .announced bh => {bh}
  | .duplicate bh => {bh}
  | _ => 0

end Token

def heldBy (m : Multiset Token) : Multiset BlobHandle := m.bind Token.held

def announcedBy (m : Multiset Token) : Multiset BlobHandle := m.bind Token.announcedHandle

def savedBy (m : Multiset Token) : Multiset BlobHandle := m.bind Token.savedHandle

section Tokens

variable (m m' : Multiset Token) (token : Token)

@[simp] theorem heldBy_zero : heldBy 0 = 0 := rfl

@[simp] theorem heldBy_cons : heldBy (token ::ₘ m) = token.held + heldBy m := by simp [heldBy]

@[simp] theorem heldBy_singleton : heldBy {token} = token.held := by simp [heldBy]

@[simp] theorem heldBy_add : heldBy (m + m') = heldBy m + heldBy m' := by simp [heldBy]

@[simp] theorem announcedBy_zero : announcedBy 0 = 0 := rfl

@[simp] theorem announcedBy_cons :
    announcedBy (token ::ₘ m) = token.announcedHandle + announcedBy m := by
  simp [announcedBy]

@[simp] theorem announcedBy_singleton : announcedBy {token} = token.announcedHandle := by
  simp [announcedBy]

@[simp] theorem announcedBy_add : announcedBy (m + m') = announcedBy m + announcedBy m' := by
  simp [announcedBy]

@[simp] theorem savedBy_zero : savedBy 0 = 0 := rfl

@[simp] theorem savedBy_cons : savedBy (token ::ₘ m) = token.savedHandle + savedBy m := by
  simp [savedBy]

@[simp] theorem savedBy_singleton : savedBy {token} = token.savedHandle := by simp [savedBy]

@[simp] theorem savedBy_add : savedBy (m + m') = savedBy m + savedBy m' := by simp [savedBy]

end Tokens

/-- The second multiset answers for the same as the first one. -/
structure Duties (m m' : Multiset Token) : Prop where
  announced : announcedBy m' = announcedBy m
  saved : savedBy m' = savedBy m
  index : ∀ idx, .index idx ∈ m' ↔ .index idx ∈ m
  broken : .broken ∈ m → .broken ∈ m'
  miscounted : .miscounted ∈ m → .miscounted ∈ m'

theorem Duties.add_frame {m m' : Multiset Token} (h : Duties m m')
    (frame : Multiset Token) : Duties (m + frame) (m' + frame) := by
  constructor
  · rw [announcedBy_add, announcedBy_add, h.announced]
  · rw [savedBy_add, savedBy_add, h.saved]
  · intro idx
    rw [mem_add, mem_add, h.index]
  · rw [mem_add, mem_add]
    exact Or.imp_left h.broken
  · rw [mem_add, mem_add]
    exact Or.imp_left h.miscounted

namespace RepoState

def openPackers (s : RepoState) : Multiset Packer :=
  ((s.pm .data).packers : Multiset Packer) + (s.pm .tree).packers

def heldIn (s : RepoState) : Multiset BlobHandle := s.openPackers.bind Packer.handles

/-- The blobs that are in a packer or carried to one. -/
def held (s : RepoState) (m : Multiset Token) : Multiset BlobHandle := s.heldIn + heldBy m

def entries (s : RepoState) (bh : BlobHandle) : Nat := s.idx.content.countP (·.toBlobHandle = bh)

theorem openPackers_setManager (s : RepoState) {t : BlobType}
    (ht : t ≠ .invalid) (packers : List Packer) (locked : Bool) :
    (s.setManager t ⟨packers, locked⟩).openPackers + (s.pm t).packers =
      s.openPackers + packers := by
  cases t with
  | invalid => exact absurd rfl ht
  | data | tree =>
    rw [openPackers, openPackers, setManager]
    simp only [Function.update_self, ne_eq, reduceCtorEq, not_false_eq_true, Function.update_of_ne]
    abel

end RepoState

/-- What the calls have to do with: the blobs whose entries are counted, the
data that is passed for a blob, and the state in which the calls began. -/
structure Setting where
  key : Key
  fresh : BlobHandle → Prop
  passed : BlobHandle → Bytes → Prop
  start : RepoState

/-! ## Packers whose file is what was hashed -/

namespace Setting

variable (c : Setting)

def Holds (content : Bytes) (blob : Blob) : Prop :=
  ∃ nonce data, c.passed blob.toBlobHandle data ∧
    slice content blob.offset blob.length = c.key.encrypt nonce data

structure Intact (p : Packer) : Prop where
  bytes : p.packer.bytes = p.packer.wr.length
  content : p.tmpfile.content = p.packer.wr
  position : p.tmpfile.position = p.packer.wr.length
  blobs : ∀ blob ∈ p.packer.blobs,
    blob.offset + blob.length ≤ p.packer.wr.length ∧ c.Holds p.packer.wr blob

/-- The header is behind the blob area, in which all blobs lie. -/
def Finished (p : Packer) : Prop :=
  c.Intact p ∧ ∃ area, Pack.IsPack c.key p.packer.blobs area p.packer.wr ∧
      ∀ blob ∈ p.packer.blobs, blob.offset + blob.length ≤ area.length

end Setting

section Packers

variable {c : Setting} {p p' : Packer}

theorem Setting.Intact.new : c.Intact .new := ⟨rfl, rfl, rfl, by simp [Packer.new, Pack.Packer.new]⟩

variable {t : BlobType} {id : ID} {data : Bytes}
  {fault headerFault lengthFault : WriteFault} {nonce : Nonce}

theorem Packer.add_spec (h : p.add t id data fault = (p', none)) : fault = none ∧
      p'.packer.blobs = p.packer.blobs ++
        [{ id := id, type := t, length := data.length, offset := p.packer.bytes }] ∧
      p'.packer.bytes = p.packer.bytes + data.length ∧
      p'.packer.wr = p.packer.wr ++ data ∧
      p'.tmpfile = p.tmpfile.write data := by
  cases fault with
  | none =>
    simp only [Packer.add, Pack.Packer.add, Pack.writeResult, Prod.mk.injEq] at h
    obtain ⟨rfl, -⟩ := h
    simp
  | some n => simp [Packer.add, Pack.Packer.add, Pack.writeResult] at h

theorem Packer.handles_add (h : p.add t id data fault = (p', none)) :
    p'.handles = ⟨id, t⟩ ::ₘ p.handles := by
  obtain ⟨-, hblobs, -⟩ := add_spec h
  rw [handles, hblobs, handles, List.map_append, ← coe_add, add_comm]
  rfl

theorem Setting.Intact.add (hp : c.Intact p) (hpassed : c.passed ⟨id, t⟩ data)
    (h : p.add t id (c.key.encrypt nonce data) fault = (p', none)) : c.Intact p' := by
  obtain ⟨-, hblobs, hbytes, hwr, hfile⟩ := add_spec h
  constructor
  · rw [hbytes, hwr, hp.bytes, List.length_append]
  · rw [hfile, hwr, TempFile.write, hp.content, hp.position, overwrite_end]
  · rw [hfile, hwr, TempFile.write, hp.position, List.length_append]
  · intro blob hblob
    rw [hblobs, List.mem_append, List.mem_singleton] at hblob
    rw [hwr, List.length_append]
    rcases hblob with hblob | rfl
    · obtain ⟨hrange, nonce', data', hpassed', hslice⟩ := hp.blobs blob hblob
      refine ⟨by omega, nonce', data', hpassed', ?_⟩
      rw [slice_append_left hrange, hslice]
    · refine ⟨by simp [hp.bytes], nonce, data, hpassed, ?_⟩
      have hmiddle := slice_append_middle p.packer.wr (c.key.encrypt nonce data) []
      rw [List.append_nil] at hmiddle
      rw [hp.bytes]
      exact hmiddle

theorem Packer.handles_finalize {k : Key} {result : Except Pack.Error Nat}
    (h : p.finalize k nonce headerFault lengthFault = (p', result)) : p'.handles = p.handles := by
  have hpacker : p'.packer = (p.packer.finalize k nonce headerFault lengthFault).1 :=
    congrArg (fun result => result.1.packer) h.symm
  rw [handles, handles, hpacker, Pack.Packer.blobs_finalize]

theorem Setting.Intact.finalize {bytesWritten : Nat} (hp : c.Intact p)
    (h : p.finalize c.key nonce headerFault lengthFault = (p', .ok bytesWritten)) :
    c.Finished p' := by
  cases hpacker : p.packer.finalize c.key nonce headerFault lengthFault with
  | mk packer result =>
    simp only [Packer.finalize, hpacker, Prod.mk.injEq] at h
    obtain ⟨rfl, rfl⟩ := h
    obtain ⟨hpack, footer, hwr, hbytes⟩ := Pack.Packer.finalize_ok hpacker
    have hblobs := p.packer.blobs_finalize c.key nonce headerFault lengthFault
    rw [hpacker] at hblobs
    dsimp only at hblobs
    have hfile : p.tmpfile.write (packer.wr.drop p.packer.wr.length) =
        p.tmpfile.write footer := by
      rw [hwr, List.drop_left]
    refine ⟨⟨?_, ?_, ?_, ?_⟩, p.packer.wr, ?_, ?_⟩
    · rw [hbytes, hwr, hp.bytes, List.length_append]
    · rw [hfile, hwr, TempFile.write, hp.content, hp.position, overwrite_end]
    · rw [hfile, hwr, TempFile.write, hp.position, List.length_append]
    · intro blob hblob
      dsimp only at hblob
      rw [hblobs] at hblob
      obtain ⟨hrange, nonce', data', hpassed, hslice⟩ := hp.blobs blob hblob
      dsimp only
      rw [hwr, List.length_append]
      refine ⟨by omega, nonce', data', hpassed, ?_⟩
      rw [slice_append_left hrange, hslice]
    · rwa [hblobs]
    · intro blob hblob
      dsimp only at hblob
      rw [hblobs] at hblob
      exact (hp.blobs blob hblob).1

theorem Packer.finalize_closed {k : Key} {bytesWritten : Nat}
    (h : p.finalize k nonce headerFault lengthFault = (p', .ok bytesWritten)) :
    headerFault = none := by
  cases headerFault with
  | none => rfl
  | some n =>
    have hresult := congrArg Prod.snd h
    simp only [Packer.finalize, Pack.Packer.finalize] at hresult
    split at hresult
    · cases hresult
    · simp [Pack.writeResult] at hresult

end Packers

/-! ## The invariant -/

/-- The entry was loaded, or an index file lists it. -/
def Setting.Covered (c : Setting) (s : RepoState) (pb : PackedBlob) : Prop :=
  pb ∈ c.start.idx.content ∨ ∃ file ∈ s.indexFiles, pb ∈ file.2.listed

/-- The pack of the entry was uploaded since the start, and holds the blob in
its blob area. -/
structure Setting.Written (c : Setting) (packs : Store ID Bytes) (pb : PackedBlob) : Prop where
  new : pb.packID ∉ c.start.packs.names
  stored : ∃ content blobs area, packs.load pb.packID = some content ∧
    Pack.IsPack c.key blobs area content ∧ pb.toBlob ∈ blobs ∧
    pb.offset + pb.length ≤ area.length ∧ c.Holds content pb.toBlob

/-- Every fresh blob is in one place. -/
structure Counted (c : Setting) (s : RepoState) (m : Multiset Token) : Prop where
  once : ∀ bh, c.fresh bh → (s.held m).count bh = if bh ∈ s.idx.pendingBlobs then 1 else 0
  announced : ∀ bh, c.fresh bh → (announcedBy m).count bh = (s.held m).count bh + s.entries bh
  unique : ∀ bh, c.fresh bh → (announcedBy m).count bh ≤ 1

/-- The packers hold what was passed, if one can write to them. -/
structure Carried (c : Setting) (s : RepoState) (m : Multiset Token) : Prop where
  listed : ∀ p ∈ s.openPackers, p.tmpfile.closed ∨ c.Intact p
  packer : ∀ p, .packer p ∈ m → p.tmpfile.closed ∨ c.Intact p
  finished : ∀ p, .finished p ∈ m → c.Finished p

/-- The packs hold what the indexes say. -/
structure Filed (c : Setting) (s : RepoState) (m : Multiset Token) : Prop where
  entries : ∀ pb ∈ s.idx.content, pb ∈ c.start.idx.content ∨ c.Written s.packs pb
  unfinal : ∀ pb, s.idx.InOpen pb → c.start.idx.InOpen pb ∨ c.Written s.packs pb
  indexes : ∀ idx, .index idx ∈ m → ∀ pb ∈ idx.content, c.start.idx.InOpen pb ∨ c.Written s.packs pb
  files : ∀ file ∈ s.indexFiles, file ∈ c.start.indexFiles ∨
    ∀ pb ∈ file.2.listed, c.start.idx.InOpen pb ∨ c.Written s.packs pb

structure Sound (c : Setting) (s : RepoState) (m : Multiset Token) : Prop where
  pending : ∀ bh ∈ s.idx.pendingBlobs, bh ∈ s.held m ∨ bh ∈ c.start.idx.pendingBlobs
  old : ∀ id ∈ c.start.packs.names, id ∈ s.packs.names
  stored : ∀ pb ∈ s.idx.content, pb ∈ c.start.idx.content ∨
    ∃ content, s.packs.load pb.packID = some content
  covered : ∀ pb, s.idx.InFinal pb → c.Covered s pb ∨ ∃ idx, .index idx ∈ m ∧ pb ∈ idx.content
  saved : ∀ bh ∈ savedBy m, bh ∈ s.held m ∨
    ∃ pb ∈ s.idx.content, pb.toBlobHandle = bh ∧
      pb.packID ∉ c.start.packs.names ∧
      ∃ content, s.packs.load pb.packID = some content
  counted : .miscounted ∉ m → Counted c s m
  carried : .broken ∉ m → Carried c s m
  filed : .broken ∉ m → Filed c s m

structure Later (s s' : RepoState) : Prop where
  has : ∀ bh, s.idx.has bh → s'.idx.has bh
  content : ∀ pb ∈ s.idx.content, pb ∈ s'.idx.content
  packs : ∀ id content, s.packs.load id = some content → s'.packs.load id = some content
  files : ∀ file ∈ s.indexFiles, file ∈ s'.indexFiles

theorem Later.refl (s : RepoState) : Later s s :=
  ⟨fun _ => id, fun _ => id, fun _ _ => id, fun _ => id⟩

theorem Later.trans {s s' s'' : RepoState} (h : Later s s') (h' : Later s' s'') : Later s s'' :=
  ⟨fun bh hbh => h'.has bh (h.has bh hbh), fun pb hpb => h'.content pb (h.content pb hpb),
    fun id content hload => h'.packs id content (h.packs id content hload),
    fun file hfile => h'.files file (h.files file hfile)⟩

theorem Later.of_eq {s s' : RepoState} (hidx : s'.idx = s.idx) (hpacks : s'.packs = s.packs)
    (hfiles : s'.indexFiles = s.indexFiles) : Later s s' := by
  constructor
  · rw [hidx]
    exact fun _ => id
  · rw [hidx]
    exact fun _ => id
  · rw [hpacks]
    exact fun _ _ => id
  · rw [hfiles]
    exact fun _ => id

def logic (c : Setting) : Logic RepoState (Multiset Token) where
  inv := Sound c
  later := Later
  busy m := .broken ∉ m
  refl := Later.refl
  trans := Later.trans
  busy_add h h' hmem := (mem_add.mp hmem).elim h h'

end Rapi.Repository
