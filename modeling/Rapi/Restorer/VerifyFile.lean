import Rapi.Foundation.FileSystem
import Rapi.Restic.Node
import Rapi.Restorer.FileRestorer

/-!
# Verifying a restored file

`verifyFile` compares a file with a node: its size, and the hash of every blob.
The buffer is passed from one call to the next.  It is the whole array behind
the slice of the source, so that its length is the capacity.
-/

namespace Rapi.Restorer

open Foundation Restic

/-- A file that has been opened.  Asking for its size or reading from it can
fail. -/
structure OpenFile where
  content : Bytes
  statError : Option Failure
  readError : Nat → Option Failure

/-- The bytes that were read, and an error if these are too few. -/
def OpenFile.readAt (f : OpenFile) (length offset : Nat) : Bytes × Option Failure :=
  if length = 0 then ([], none)
  else
    match f.readError offset with
    | some failure => ([], some failure)
    | none =>
      let data := (f.content.drop offset).take length
      (data, if data.length < length then some .eof else none)

structure Verifier where
  hash : Bytes → ID
  lookupBlobSize : ID → Option Nat

namespace Verifier

variable (res : Verifier)

def reserve (buf : Bytes) (length : Nat) : Bytes :=
  if buf.length < length then List.replicate (2 * length) 0 else buf

def verifyBlobs (target : Bytes) (f : OpenFile) : List ID → Nat → Bytes → Bytes × Option Failure
  | [], _, buf => (buf, none)
  | blobID :: rest, offset, buf =>
    match res.lookupBlobSize blobID with
    | none => (buf, some (.unableToFetchBlob blobID))
    | some length =>
      let buf := reserve buf length
      match f.readAt length offset with
      | (data, some failure) => (overwrite buf 0 data, some failure)
      | (data, none) =>
        let buf := overwrite buf 0 data
        if blobID ≠ res.hash (buf.take length) then
          (buf, some (.unexpectedContent target offset))
        else verifyBlobs target f rest (offset + length) buf

/-- The size of the node is converted to a signed number. -/
def verifyFile (opened : Except Failure OpenFile) (target : Bytes)
    (node : Node) (buf : Bytes) : Bytes × Option Failure :=
  match opened with
  | .error failure => (buf, some failure)
  | .ok f =>
    match f.statError with
    | some failure => (buf, some failure)
    | none =>
      if (BitVec.ofNat 64 node.size).toInt ≠ f.content.length then
        (buf, some (.invalidFileSize target node.size f.content.length))
      else res.verifyBlobs target f node.content 0 buf

end Verifier

end Rapi.Restorer
