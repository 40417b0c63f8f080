import Rapi.Foundation.Store
import Rapi.Foundation.Transition
import Rapi.Restic.Blob

/-!
# The lock protocol of a repository

Clients lock a repository with files in the backend.  `newLock` looks for other
lock files, saves its own and looks again; each look is one listing followed by
one load for each listed file, and a file that cannot be loaded any more is
ignored.  `Refresh` saves a new file and then removes the old one.

Every event is one backend operation of one client (or a call or return in
between), so that the runs of the system are all interleavings of these
operations.  A lock file records its creator; hostname, user, process and time
of the source are not read by the protocol and are left out.  The fields
`startedAt`, `acquiredAt` and `clock` only record when things happened.
-/

namespace Rapi.Locking

open Foundation Restic

structure Lock (Client : Type) where
  owner : Client
  exclusive : Bool
  deriving DecidableEq

inductive Phase where
  | idle
  | firstList (excl : Bool)
  | firstLoad (excl : Bool) (pending : List ID)
  | create (excl : Bool)
  | secondList (excl : Bool) (id : ID)
  | secondLoad (excl : Bool) (id : ID) (pending : List ID)
  | held (excl : Bool) (id : ID)
  | refreshed (excl : Bool) (id old : ID)
  | unlocking (id : ID)
  deriving DecidableEq

structure State (Client : Type) where
  files : Store ID (Lock Client)
  phase : Client → Phase
  startedAt : Client → Nat
  acquiredAt : Client → Nat
  clock : Nat

def initial {Client : Type} (files : Store ID (Lock Client)) : State Client :=
  ⟨files, fun _ => .idle, fun _ => 0, fun _ => 0, 0⟩

inductive Event (Client : Type) where
  | newLock (c : Client) (excl : Bool)
  | list (c : Client)
  | load (c : Client) (id : ID)
  | checked (c : Client)
  | save (c : Client) (id : ID)
  | refresh (c : Client) (id : ID)
  | remove (c : Client)
  | unlock (c : Client)
  | fail (c : Client)

namespace State

variable {Client : Type} [DecidableEq Client]

def goto (s : State Client) (c : Client) (next : Phase) : State Client :=
  { s with phase := Function.update s.phase c next, clock := s.clock + 1 }

def saveFile (s : State Client) (id : ID) (lock : Lock Client) : State Client :=
  { s with files := s.files.save id lock }

def removeFile (s : State Client) (id : ID) : State Client :=
  { s with files := s.files.remove id }

/--
The callback of `checkForOtherLocks` on one listed file.  An exclusive lock is
refused because of any other lock, any lock because of an exclusive one.
-/
def conflicts (s : State Client) (excl : Bool) (id : ID) : Bool :=
  match s.files.load id with
  | none => false
  | some lock => excl || lock.exclusive

/-- The lock of `c` is acquired: `newLock` returned it, `Unlock` not called. -/
def Holds (s : State Client) (c : Client) (excl : Bool) : Prop :=
  ∃ id, s.phase c = .held excl id ∨ ∃ old, s.phase c = .refreshed excl id old

end State

section Step

variable {Client : Type} [DecidableEq Client]

def step (s : State Client) : Event Client → Option (State Client)
  | .newLock c excl =>
    match s.phase c with
    | .idle => some
        { s.goto c (.firstList excl) with
          startedAt := Function.update s.startedAt c s.clock }
    | _ => none
  | .list c =>
    match s.phase c with
    | .firstList excl => some (s.goto c (.firstLoad excl s.files.names))
    | .secondList excl id => some (s.goto c (.secondLoad excl id (s.files.names.filter (· ≠ id))))
    | _ => none
  | .load c id =>
    match s.phase c with
    | .firstLoad excl pending =>
      if id ∈ pending then
        if s.conflicts excl id then some (s.goto c .idle)
        else some (s.goto c (.firstLoad excl (pending.erase id)))
      else none
    | .secondLoad excl own pending =>
      if id ∈ pending then
        if s.conflicts excl id then some (s.goto c (.unlocking own))
        else some (s.goto c (.secondLoad excl own (pending.erase id)))
      else none
    | _ => none
  | .checked c =>
    match s.phase c with
    | .firstLoad excl [] => some (s.goto c (.create excl))
    | .secondLoad excl id [] => some
        { s.goto c (.held excl id) with
          acquiredAt := Function.update s.acquiredAt c s.clock }
    | _ => none
  | .save c id =>
    match s.phase c with
    | .create excl =>
      if id ∈ s.files.names then none
      else some ((s.saveFile id ⟨c, excl⟩).goto c (.secondList excl id))
    | _ => none
  | .refresh c id =>
    match s.phase c with
    | .held excl old =>
      if id ∈ s.files.names then none
      else some ((s.saveFile id ⟨c, excl⟩).goto c (.refreshed excl id old))
    | _ => none
  | .remove c =>
    match s.phase c with
    | .refreshed excl id old => some ((s.removeFile old).goto c (.held excl id))
    | .unlocking id => some ((s.removeFile id).goto c .idle)
    | _ => none
  | .unlock c =>
    match s.phase c with
    | .held _ id => some (s.goto c (.unlocking id))
    | _ => none
  -- the operation that the client is about to make returns an error
  | .fail c =>
    match s.phase c with
    | .firstList _ => some (s.goto c .idle)
    | .firstLoad _ _ => some (s.goto c .idle)
    | .create _ => some (s.goto c .idle)
    | .secondList _ id => some (s.goto c (.unlocking id))
    | .secondLoad _ id _ => some (s.goto c (.unlocking id))
    | .refreshed excl id _ => some (s.goto c (.held excl id))
    | .unlocking _ => some (s.goto c .idle)
    | _ => none

end Step

end Rapi.Locking
