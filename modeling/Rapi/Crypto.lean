import Rapi.Foundation.Bytes

/-!
# Authenticated encryption of byte strings

`Key.Seal` encrypts with AES-256 in counter mode and appends a Poly1305-AES
tag; `Key.Open` checks the tag and undoes the encryption.  The two primitives
live outside the repository and are fields of `Key`: the key stream, which does
not depend on the text, and the tag, which has sixteen bytes.  Everything else
is the code of the repository, so that `Open` undoing `Seal` is a theorem.
-/

namespace Rapi.Crypto

open Foundation

def ivSize : Nat := 16

def macSize : Nat := 16

/-- The number of bytes a plaintext is enlarged by encrypting it. -/
def extension : Nat := ivSize + macSize

def validNonce (nonce : Bytes) : Bool := nonce.any (· ≠ 0)

/--
A nonce that `Seal` accepts.  `Seal` panics on any other nonce, so that
`NewRandomNonce` followed by `Seal` only continues with one of these.
-/
structure Nonce where
  bytes : Bytes
  length_bytes : bytes.length = ivSize
  valid_bytes : validNonce bytes

/-- A key that passes `Key.Valid`; `Seal` panics on any other key. -/
structure Key where
  keyStream : Bytes → Nat → UInt8
  poly1305MAC : Bytes → Bytes → Bytes
  length_poly1305MAC : ∀ msg nonce, (poly1305MAC msg nonce).length = macSize

inductive OpenError where
  | nonceInvalid
  | ciphertextTooSmall
  | unauthenticated
  deriving DecidableEq, Repr

namespace Key

def xorKeyStream (k : Key) (nonce text : Bytes) : Bytes :=
  text.mapIdx fun i byte => byte ^^^ k.keyStream nonce i

/-- `Seal` without its `dst` argument: the bytes that it appends to `dst`. -/
def «seal» (k : Key) (nonce : Nonce) (plaintext : Bytes) : Bytes :=
  let out := k.xorKeyStream nonce.bytes plaintext
  out ++ k.poly1305MAC out nonce.bytes

/-- `Open` for the nonces of `ivSize` bytes that all its callers cut off. -/
def «open» (k : Key) (nonce ciphertext : Bytes) : Except OpenError Bytes :=
  if !validNonce nonce then .error .nonceInvalid
  else if ciphertext.length < macSize then .error .ciphertextTooSmall
  else
    let l := ciphertext.length - macSize
    let ct := ciphertext.take l
    let mac := ciphertext.drop l
    if k.poly1305MAC ct nonce = mac then .ok (k.xorKeyStream nonce ct)
    else .error .unauthenticated

@[simp] theorem length_xorKeyStream (k : Key) (nonce text : Bytes) :
    (k.xorKeyStream nonce text).length = text.length := by
  simp [xorKeyStream]

@[simp] theorem xorKeyStream_xorKeyStream (k : Key) (nonce text : Bytes) :
    k.xorKeyStream nonce (k.xorKeyStream nonce text) = text := by
  apply List.ext_getElem
  · simp
  · intro i h₁ h₂
    simp [xorKeyStream]

section Encrypt

variable (k : Key) (nonce : Nonce) (plaintext : Bytes)

@[simp] theorem length_seal :
    (k.seal nonce plaintext).length = plaintext.length + macSize := by
  simp [«seal», k.length_poly1305MAC]

@[simp] theorem open_seal :
    k.open nonce.bytes (k.seal nonce plaintext) = .ok plaintext := by
  have hlength : (k.seal nonce plaintext).length - macSize =
      (k.xorKeyStream nonce.bytes plaintext).length := by
    simp
  have hlarge : ¬ (k.seal nonce plaintext).length < macSize := by simp
  simp only [«open», nonce.valid_bytes, Bool.not_true, Bool.false_eq_true,
    if_false, if_neg hlarge, hlength]
  simp [«seal»]

/-- Nonce and sealed text together, as every file of a repository stores them. -/
def encrypt : Bytes :=
  nonce.bytes ++ k.seal nonce plaintext

@[simp] theorem length_encrypt :
    (k.encrypt nonce plaintext).length = plaintext.length + extension := by
  simp [encrypt, nonce.length_bytes, extension]
  omega

theorem take_encrypt :
    (k.encrypt nonce plaintext).take ivSize = nonce.bytes := by
  simp [encrypt, ← nonce.length_bytes]

theorem drop_encrypt :
    (k.encrypt nonce plaintext).drop ivSize = k.seal nonce plaintext := by
  simp [encrypt, ← nonce.length_bytes]

end Encrypt

theorem length_of_open {k : Key} {nonce ciphertext plaintext : Bytes}
    (h : k.open nonce ciphertext = .ok plaintext) :
    ciphertext.length = plaintext.length + macSize := by
  unfold «open» at h
  split at h
  · cases h
  · split at h
    · cases h
    · dsimp only at h
      split at h
      · cases h
        rw [length_xorKeyStream, List.length_take]
        omega
      · cases h

/-- `Open` after the nonce was cut off; without a result the slice is out of range. -/
def decrypt (k : Key) (buf : Bytes) : Option (Except OpenError Bytes) := do
  let nonce ← sliceTo? buf ivSize
  let ciphertext ← sliceFrom? buf ivSize
  return k.open nonce ciphertext

section Decrypt

variable {k : Key} {buf plaintext : Bytes}

theorem decrypt_of_le (h : ivSize ≤ buf.length) :
    k.decrypt buf = some (k.open (buf.take ivSize) (buf.drop ivSize)) := by
  simp [decrypt, sliceTo?, sliceFrom?, h]

theorem decrypt_eq_none : k.decrypt buf = none ↔ buf.length < ivSize := by
  by_cases h : ivSize ≤ buf.length
  · simp [decrypt_of_le h, Nat.not_lt.mpr h]
  · simp [decrypt, sliceTo?, h, Nat.not_le.mp h]

theorem length_of_decrypt (h : k.decrypt buf = some (.ok plaintext)) :
    buf.length = plaintext.length + extension := by
  have hlong : ivSize ≤ buf.length := by
    rw [← Nat.not_lt, ← decrypt_eq_none, h]
    nofun
  rw [decrypt_of_le hlong, Option.some.injEq] at h
  have hlength := length_of_open h
  rw [List.length_drop] at hlength
  rw [extension]
  omega

end Decrypt

end Key

/-! ## A concrete key, on which the results below are instantiated -/

def sampleKey : Key where
  keyStream nonce i := nonce.getD (i % ivSize) 0
  poly1305MAC _ _ := List.replicate macSize 0
  length_poly1305MAC := by simp

def sampleNonce : Nonce where
  bytes := List.replicate ivSize 1
  length_bytes := by simp
  valid_bytes := by decide

end Rapi.Crypto
