import Rapi.Foundation.Bytes

/-!
# Access control lists in extended attributes

An attribute is a version and a list of elements of eight bytes.  In an `acl` the
tag and the ID of an element are kept as one number.
-/

namespace Rapi.Dump

open Foundation List Nat

/-! ## The codec -/

structure AclElement where
  sid : UInt64
  perm : UInt16
  deriving DecidableEq

structure Acl where
  version : UInt32 := 0
  list : List AclElement := []
  deriving DecidableEq

def getType (sid : UInt64) : UInt64 := sid >>> 32

def getID (sid : UInt64) : UInt32 := (sid &&& 0xFFFFFFFF).toUInt32

def sidOf (tag : UInt16) (id : UInt32) : UInt64 := (tag.toUInt64 <<< 32) ||| id.toUInt64

/-- The bytes of an `aclElem`: tag, permissions, ID. -/
def readElem (bytes : Bytes) : AclElement where
  sid := sidOf (.ofNat (uintOf (slice bytes 0 2))) (.ofNat (uintOf (slice bytes 4 4)))
  perm := .ofNat (uintOf (slice bytes 2 2))

def writeElem (elem : AclElement) : Bytes :=
  putUint 2 (getType elem.sid).toUInt16.toNat ++ putUint 2 elem.perm.toNat ++
    putUint 4 (getID elem.sid).toNat

/-- The loop of `decode`, which ends at an incomplete element. -/
def readElems : Bytes → List AclElement
  | b₀ :: b₁ :: b₂ :: b₃ :: b₄ :: b₅ :: b₆ :: b₇ :: rest =>
    readElem [b₀, b₁, b₂, b₃, b₄, b₅, b₆, b₇] :: readElems rest
  | _ => []

def Acl.decode (a : Acl) (xattr : Bytes) : Acl :=
  if xattr.length < 4 then { a with version := 0 }
  else ⟨.ofNat (uintOf (xattr.take 4)), readElems (xattr.drop 4)⟩

def Acl.encode (a : Acl) : Bytes := putUint 4 a.version.toNat ++ a.list.flatMap writeElem

/-! ## Tag and ID in one number -/

theorem toNat_sidOf (tag : UInt16) (id : UInt32) :
    (sidOf tag id).toNat = 2 ^ 32 * tag.toNat + id.toNat := by
  have htag := tag.toNat_lt
  have hshift : (tag.toUInt64 <<< 32).toNat = tag.toNat <<< 32 := by
    have hsmall : tag.toNat <<< 32 < 2 ^ 64 := by
      rw [shiftLeft_eq]
      omega
    rw [UInt64.toNat_shiftLeft, UInt16.toNat_toUInt64]
    exact mod_eq_of_lt hsmall
  rw [sidOf, UInt64.toNat_or, hshift, UInt32.toNat_toUInt64,
    ← shiftLeft_add_eq_or_of_lt id.toNat_lt, shiftLeft_eq, mul_comm]

theorem toNat_getType (sid : UInt64) : (getType sid).toNat = sid.toNat / 2 ^ 32 := by
  simp [getType, shiftRight_eq_div_pow]

theorem toNat_getID (sid : UInt64) : (getID sid).toNat = sid.toNat % 2 ^ 32 := by
  rw [getID, UInt64.toNat_toUInt32, UInt64.toNat_and]
  change (sid.toNat &&& (2 ^ 32 - 1)) % 2 ^ 32 = _
  rw [and_two_pow_sub_one_eq_mod, mod_mod]

theorem getType_sidOf (tag : UInt16) (id : UInt32) : (getType (sidOf tag id)).toUInt16 = tag := by
  have hid := id.toNat_lt
  have htag := tag.toNat_lt
  apply UInt16.toNat_inj.mp
  rw [UInt64.toNat_toUInt16, toNat_getType, toNat_sidOf]
  omega

theorem getID_sidOf (tag : UInt16) (id : UInt32) : getID (sidOf tag id) = id := by
  have hid := id.toNat_lt
  apply UInt32.toNat_inj.mp
  rw [toNat_getID, toNat_sidOf]
  omega

theorem sidOf_getType {sid : UInt64} (h : getType sid < 2 ^ 16) :
    sidOf (getType sid).toUInt16 (getID sid) = sid := by
  have htag : (getType sid).toNat < 2 ^ 16 := UInt64.lt_iff_toNat_lt.mp h
  apply UInt64.toNat_inj.mp
  rw [toNat_sidOf, toNat_getID, UInt64.toNat_toUInt16, mod_eq_of_lt htag, toNat_getType]
  omega

/-! ## One element -/

theorem length_writeElem (elem : AclElement) : (writeElem elem).length = 8 := by simp [writeElem]

theorem readElem_writeElem {elem : AclElement} (h : getType elem.sid < 2 ^ 16) :
    readElem (writeElem elem) = elem := by
  have hslices : slice (writeElem elem) 0 2 = putUint 2 (getType elem.sid).toUInt16.toNat ∧
      slice (writeElem elem) 2 2 = putUint 2 elem.perm.toNat ∧
      slice (writeElem elem) 4 4 = putUint 4 (getID elem.sid).toNat := by
    refine ⟨rfl, rfl, rfl⟩
  obtain ⟨htag, hperm, hid⟩ := hslices
  have := elem.perm.toNat_lt
  have := (getID elem.sid).toNat_lt
  have := (getType elem.sid).toUInt16.toNat_lt
  rw [readElem, htag, hperm, hid, uintOf_putUint, uintOf_putUint, uintOf_putUint,
    mod_eq_of_lt (by omega), mod_eq_of_lt (by omega), mod_eq_of_lt (by omega),
    UInt16.ofNat_toNat, UInt16.ofNat_toNat, UInt32.ofNat_toNat, sidOf_getType h]

theorem putUint_ofNat16 {bytes : Bytes} (h : bytes.length = 2) :
    putUint 2 (UInt16.ofNat (uintOf bytes)).toNat = bytes := by
  have hlt := uintOf_lt bytes
  rw [h] at hlt
  rw [UInt16.toNat_ofNat', mod_eq_of_lt (by omega), ← h, putUint_uintOf]

theorem putUint_ofNat32 {bytes : Bytes} (h : bytes.length = 4) :
    putUint 4 (UInt32.ofNat (uintOf bytes)).toNat = bytes := by
  have hlt := uintOf_lt bytes
  rw [h] at hlt
  rw [UInt32.toNat_ofNat', mod_eq_of_lt (by omega), ← h, putUint_uintOf]

theorem writeElem_readElem {bytes : Bytes} (h : bytes.length = 8) :
    writeElem (readElem bytes) = bytes := by
  have hslices : slice bytes 0 2 ++ slice bytes 2 2 ++ slice bytes 4 4 = bytes := by
    match bytes, h with
    | [_, _, _, _, _, _, _, _], _ => rfl
  rw [writeElem, readElem, getType_sidOf, getID_sidOf,
    putUint_ofNat16 (slice_length (by omega)), putUint_ofNat16 (slice_length (by omega)),
    putUint_ofNat32 (slice_length (by omega)), hslices]

/-! ## The list -/

theorem readElems_append {bytes : Bytes} (h : bytes.length = 8) (rest : Bytes) :
    readElems (bytes ++ rest) = readElem bytes :: readElems rest := by
  match bytes, h with
  | [_, _, _, _, _, _, _, _], _ => rfl

theorem readElems_flatMap {list : List AclElement} (h : ∀ elem ∈ list, getType elem.sid < 2 ^ 16) :
    readElems (list.flatMap writeElem) = list := by
  induction list with
  | nil => rfl
  | cons elem list ih =>
    rw [flatMap_cons, readElems_append (length_writeElem elem),
      readElem_writeElem (h elem mem_cons_self), ih fun e he => h e (mem_cons_of_mem _ he)]

theorem readElems_short {bytes : Bytes} (h : bytes.length < 8) : readElems bytes = [] := by
  unfold readElems
  split
  · simp only [length_cons] at h
    omega
  · rfl

theorem readElems_eq {n : Nat} {bytes : Bytes} (h : bytes.length / 8 = n) :
    readElems bytes = (range n).map fun i => readElem (slice bytes (8 * i) 8) := by
  induction n generalizing bytes with
  | zero => exact readElems_short (by omega)
  | succ n ih =>
    have hfirst : (bytes.take 8).length = 8 := by
      rw [length_take]
      omega
    have hrest := ih (show (bytes.drop 8).length / 8 = n by rw [length_drop]; omega)
    conv_lhs => rw [← take_append_drop 8 bytes]
    have hnext : ∀ i, slice (bytes.drop 8) (8 * i) 8 = slice bytes (8 * (i + 1)) 8 := by
      intro i
      rw [slice, slice, drop_drop, show 8 + 8 * i = 8 * (i + 1) by omega]
    rw [readElems_append hfirst, hrest, range_succ_eq_map, map_cons, map_map]
    simp only [hnext, Function.comp_def, succ_eq_add_one]
    rfl

theorem flatMap_readElems {n : Nat} {bytes : Bytes} (h : bytes.length = 8 * n) :
    (readElems bytes).flatMap writeElem = bytes := by
  induction n generalizing bytes with
  | zero =>
    rw [length_eq_zero_iff.mp h]
    rfl
  | succ n ih =>
    have hfirst : (bytes.take 8).length = 8 := by
      rw [length_take]
      omega
    have hrest := ih (show (bytes.drop 8).length = 8 * n by rw [length_drop]; omega)
    conv_lhs => rw [← take_append_drop 8 bytes]
    rw [readElems_append hfirst, flatMap_cons, writeElem_readElem hfirst, hrest, take_append_drop]

/-- Decoding and encoding undo each other, and decoding drops what is incomplete. -/
theorem acl_codec :
    (∀ (old : Acl) (xattr : Bytes) (n : Nat), xattr.length = 4 + 8 * n →
      (old.decode xattr).encode = xattr) ∧
    (∀ old a : Acl, (∀ elem ∈ a.list, getType elem.sid < 2 ^ 16) →
      old.decode a.encode = a) ∧
    ∀ xattr : Bytes, Acl.decode {} xattr =
      if xattr.length < 4 then {}
      else ⟨.ofNat (uintOf (xattr.take 4)),
        (range ((xattr.length - 4) / 8)).map fun i =>
          readElem (slice xattr (4 + 8 * i) 8)⟩ := by
  refine ⟨fun old xattr n h => ?_, fun old a h => ?_, fun xattr => ?_⟩
  · have hversion : (xattr.take 4).length = 4 := by
      rw [length_take]
      omega
    have hlist : (xattr.drop 4).length = 8 * n := by
      rw [length_drop]
      omega
    rw [Acl.decode, if_neg (by omega), Acl.encode, putUint_ofNat32 hversion,
      flatMap_readElems hlist, take_append_drop]
  · have hversion : (putUint 4 a.version.toNat).length = 4 := length_putUint _ _
    have hlength : ¬a.encode.length < 4 := by
      rw [Acl.encode, length_append, hversion]
      omega
    have hlt := a.version.toNat_lt
    rw [Acl.decode, if_neg hlength, Acl.encode, take_left' hversion, drop_left' hversion,
      readElems_flatMap h, uintOf_putUint, mod_eq_of_lt (by omega), UInt32.ofNat_toNat]
  · rw [Acl.decode]
    split
    · rfl
    · rw [readElems_eq (show (xattr.drop 4).length / 8 = _ by rw [length_drop])]
      simp only [slice, drop_drop]

theorem acl_codec_sample :
    (Acl.decode { list := [⟨7, 7⟩, ⟨8, 8⟩] }
      (Acl.encode ⟨2, [⟨sidOf 1 1000, 6⟩]⟩)).list = [⟨sidOf 1 1000, 6⟩] := by
  rw [acl_codec.2.1 _ ⟨2, [⟨sidOf 1 1000, 6⟩]⟩ (by decide)]

end Rapi.Dump
