import Rapi.Crypto

/-!
# Identifiers and blobs

An `ID` is the SHA-256 digest that names a file or a blob of a repository.  A
blob is a piece of a file or a serialized tree; a pack file stores many of
them, each at an offset and with the length of its ciphertext.
-/

namespace Rapi.Restic

open Foundation

def idSize : Nat := 32

structure ID where
  bytes : Bytes
  length_bytes : bytes.length = idSize
  deriving DecidableEq

namespace ID

def null : ID where
  bytes := List.replicate idSize 0
  length_bytes := by simp

instance : Inhabited ID := ⟨null⟩

/-- The ID whose last byte is `n`; used to name things in small examples. -/
def ofNat (n : Nat) : ID where
  bytes := List.replicate (idSize - 1) 0 ++ [UInt8.ofNat n]
  length_bytes := by simp [idSize]

def isNull (id : ID) : Bool := id == null

@[ext] theorem ext_bytes {first second : ID} (h : first.bytes = second.bytes) : first = second := by
  cases first
  cases second
  simpa using h

end ID

inductive BlobType where
  | invalid
  | data
  | tree
  deriving DecidableEq, Repr

inductive FileType
  | pack
  | key
  | lock
  | snapshot
  | index
  | config
  deriving DecidableEq

structure BlobHandle where
  id : ID
  type : BlobType
  deriving DecidableEq

structure Blob extends BlobHandle where
  length : Nat
  offset : Nat
  deriving DecidableEq

structure PackedBlob extends Blob where
  packID : ID
  deriving DecidableEq

def ciphertextLength (plaintextSize : Nat) : Nat := plaintextSize + Crypto.extension

end Rapi.Restic
