import Rapi.Foundation.Transition
import Rapi.Restic.Blob

/-!
# A backend with a cache

`cache.Backend` keeps copies of files of a backend in a local directory.  Calls
run concurrently; what a call does between two accesses to the backend, to the
cache or to the map of downloads in progress is one step.  A file is written to
the cache under a temporary name and renamed, so that it is there as a whole or
not at all, and an open file can be read to its end even if it is removed.

The answer of the environment says whether an access fails.  A failed access to
the backend may have had its effect.  The cache may lose a file at any time.
Only for the proofs, the state also keeps what the loads have delivered, which
files were removed with success, and which files are `halfRemoved`: a `Remove`
of the file returned an error after it had removed it from the backend.
-/

namespace Rapi.Cache

open Foundation Restic Function

/-- The types in `cacheLayoutPaths`. -/
def canBeCached : FileType → Bool
  | .pack => true
  | .snapshot => true
  | .index => true
  | _ => false

/-- With a shorter name `filename` panics. -/
structure Handle where
  type : FileType
  containedBlobType : BlobType
  name : Bytes
  named : canBeCached type → 2 ≤ name.length
  deriving DecidableEq

/-- What tells files apart, in the backend and in the cache. -/
structure File where
  type : FileType
  name : Bytes
  deriving DecidableEq

def Handle.file (h : Handle) : File := ⟨h.type, h.name⟩

def autoCacheTypes (h : Handle) : Bool :=
  match h.type with
  | .index => true
  | .snapshot => true
  | .pack => h.containedBlobType = .tree
  | _ => false

/-- The bytes from an offset on; a length of zero means all of them. -/
def rangeOf (content : Bytes) (length offset : Nat) : Bytes :=
  if length = 0 then content.drop offset else slice content offset length

/-- What `Cache.load` makes of an open file.  The sum of offset and length is
negative if it exceeds 63 bits. -/
def readCached (data : Bytes) (length offset : Nat) : Option Bytes :=
  if data.length ≤ Crypto.extension then none
  else if offset + length < 2 ^ 63 ∧ data.length < offset + length then none
  else some (rangeOf data length offset)

/-! ## The calls -/

inductive Source
  | cache
  | backend
  deriving DecidableEq

inductive LoadPhase
  | lookup
  | waitForFinish (ch : Nat)
  | has
  | load
  | register
  | waitForOther (ch : Nat)
  | hasAgain
  | download
  | store (data : Bytes)
  | finish
  | unregister
  | loadOrDelegate
  | delegate
  | consume (source : Source) (data : Bytes)
  /-- `Cache.remove`, after which the call goes on with `next`. -/
  | remove (next : LoadPhase)

inductive SavePhase
  | backend
  | store
  | remove

inductive StatPhase
  | backend
  | remove

inductive RemovePhase
  | backend
  | cache

inductive Call
  | load (h : Handle) (length offset : Nat)
  | save (h : Handle)
  | stat (h : Handle)
  | remove (h : Handle)

inductive Phase
  | idle
  | load (h : Handle) (length offset : Nat) (phase : LoadPhase)
  | save (h : Handle) (phase : SavePhase)
  | stat (h : Handle) (phase : StatPhase)
  | remove (h : Handle) (phase : RemovePhase)
  | returned

def Call.start : Call → Phase
  | .load h length offset => .load h length offset .lookup
  | .save h => .save h .backend
  | .stat h => .stat h .backend
  | .remove h => .remove h .backend

/-! ## The state -/

/-- How a `Load` ended; `delivered` is what the consumer got if it succeeded. -/
structure Outcome where
  file : File
  length : Nat
  offset : Nat
  source : Source
  delivered : Option Bytes
  held : Bool
  halfRemoved : Bool
  removed : Bool

/-- Channels are known by the call that made them. -/
structure State where
  backend : File → Bool
  cache : File → Option Bytes
  inProgress : Handle → Option Nat
  closed : Nat → Bool
  calls : Nat → Phase
  outcomes : List Outcome
  halfRemoved : File → Bool
  removed : File → Bool

inductive Answer
  | ok
  | fail
  | failAfter
  deriving DecidableEq

inductive Event
  | start (i : Nat) (call : Call)
  | move (i : Nat) (answer : Answer)
  | lose (file : File)

namespace State

def has (s : State) (h : Handle) : Bool := canBeCached h.type && (s.cache h.file).isSome

def setCall (s : State) (i : Nat) (phase : Phase) : State :=
  { s with calls := update s.calls i phase }

def setCache (s : State) (file : File) (data : Option Bytes) : State :=
  { s with cache := update s.cache file data }

/-- `Cache.remove`; the second component says whether it fails.  It also fails
if the file gets lost after it was found. -/
def cacheRemove (s : State) (h : Handle) (answer : Answer) : State × Bool :=
  if s.has h then
    match answer with
    | .ok => (s.setCache h.file none, false)
    | .fail => (s, true)
    | .failAfter => (s.setCache h.file none, true)
  else (s, false)

/-- `Cache.Save`; a short file is not kept.  The second component says whether
it fails. -/
def cacheSave (s : State) (h : Handle) (data : Bytes) (answer : Answer) : State × Bool :=
  if canBeCached h.type ∧ answer ≠ .fail then
    if data.length ≤ Crypto.extension then (s, false)
    else (s.setCache h.file (some data), false)
  else (s, true)

end State

variable (content : File → Bytes)

section Load

variable (s : State) (i : Nat) (h : Handle) (length offset : Nat)

def endLoad (source : Source) (delivered : Option Bytes) : State :=
  { s.setCall i .returned with
    outcomes := s.outcomes ++ [{
      file := h.file
      length := length
      offset := offset
      source := source
      delivered := delivered
      held := s.backend h.file
      halfRemoved := s.halfRemoved h.file
      removed := s.removed h.file }] }

/-- What `Load` does with a file that is not in the cache. -/
def miss : LoadPhase := if autoCacheTypes h then .register else .delegate

/-- `Cache.load`, after which the call goes on with `next` if it fails. -/
def loadCached (answer : Answer) (next : LoadPhase) : LoadPhase :=
  if s.has h ∧ answer = .ok then
    match s.cache h.file with
    | none => next
    | some data =>
      match readCached data length offset with
      | none => .remove next
      | some range => .consume .cache range
  else next

def loadStep (answer : Answer) : LoadPhase → Option State
  | .lookup =>
    match s.inProgress h with
    | some ch => some (s.setCall i (.load h length offset (.waitForFinish ch)))
    | none => some (s.setCall i (.load h length offset .has))
  | .waitForFinish ch =>
    if s.closed ch then some (s.setCall i (.load h length offset .has))
    else none
  | .has =>
    let next := if s.has h then .load else miss h
    some (s.setCall i (.load h length offset next))
  | .load =>
    let next := loadCached s h length offset answer (miss h)
    some (s.setCall i (.load h length offset next))
  | .register =>
    match s.inProgress h with
    | some ch => some (s.setCall i (.load h length offset (.waitForOther ch)))
    | none =>
      some { s.setCall i (.load h length offset .hasAgain) with
        inProgress := update s.inProgress h (some i) }
  | .waitForOther ch =>
    if s.closed ch then some (s.setCall i (.load h length offset .loadOrDelegate))
    else none
  | .hasAgain =>
    let next := if s.has h then .finish else .download
    some (s.setCall i (.load h length offset next))
  | .download =>
    let next := if s.backend h.file ∧ answer = .ok then
      .store (content h.file) else .remove .finish
    some (s.setCall i (.load h length offset next))
  | .store data =>
    let (s, failed) := s.cacheSave h data answer
    -- `Backend.Load` may fail after the file was stored
    let next := if failed ∨ answer = .failAfter then .remove .finish else .finish
    some (s.setCall i (.load h length offset next))
  | .finish =>
    some { s.setCall i (.load h length offset .unregister) with
      closed := update s.closed i true }
  | .unregister =>
    some { s.setCall i (.load h length offset .loadOrDelegate) with
      inProgress := update s.inProgress h none }
  | .loadOrDelegate =>
    let next := loadCached s h length offset answer .delegate
    some (s.setCall i (.load h length offset next))
  | .delegate =>
    if s.backend h.file ∧ answer = .ok then
      some (s.setCall i (.load h length offset
        (.consume .backend (rangeOf (content h.file) length offset))))
    else some (endLoad s i h length offset .backend none)
  | .consume source data =>
    let delivered := if answer = .ok then some data else none
    some (endLoad s i h length offset source delivered)
  | .remove next => some ((s.cacheRemove h answer).1.setCall i (.load h length offset next))

end Load

section Others

variable (s : State) (i : Nat) (h : Handle)

/-- The backend has the file. -/
def saved : State :=
  { s with
    backend := update s.backend h.file true
    halfRemoved := update s.halfRemoved h.file false }

def saveStep (answer : Answer) : SavePhase → State
  | .backend =>
    match answer with
    | .ok => (saved s h).setCall i (if autoCacheTypes h then .save h .store else .returned)
    | .fail => s.setCall i .returned
    | .failAfter => (saved s h).setCall i .returned
  | .store =>
    -- the reader cannot be rewound
    if answer = .failAfter then s.setCall i .returned
    else
      match s.cacheSave h (content h.file) answer with
      | (s, false) => s.setCall i .returned
      | (s, true) => s.setCall i (.save h .remove)
  | .remove => (s.cacheRemove h answer).1.setCall i .returned

def statStep (answer : Answer) : StatPhase → State
  | .backend =>
    if answer = .ok ∧ s.backend h.file = false then s.setCall i (.stat h .remove)
    else s.setCall i .returned
  | .remove => (s.cacheRemove h answer).1.setCall i .returned

def removeStep (answer : Answer) : RemovePhase → State
  | .backend =>
    match answer with
    | .ok =>
      { s.setCall i (.remove h .cache) with
        backend := update s.backend h.file false }
    | .fail => s.setCall i .returned
    | .failAfter =>
      { s.setCall i .returned with
        backend := update s.backend h.file false
        halfRemoved := update s.halfRemoved h.file (s.halfRemoved h.file || s.backend h.file) }
  | .cache =>
    match s.cacheRemove h answer with
    | (s, false) =>
      { s.setCall i .returned with
        halfRemoved := update s.halfRemoved h.file false
        removed := update s.removed h.file true }
    | (s, true) =>
      { s.setCall i .returned with
        halfRemoved := update s.halfRemoved h.file true }

/-- A file that is being saved does not count as removed any more. -/
def startCall (call : Call) : State :=
  match call with
  | .save h =>
    { s.setCall i call.start with
      removed := update s.removed h.file false }
  | _ => s.setCall i call.start

end Others

def step (s : State) : Event → Option State
  | .start i call =>
    match s.calls i with
    | .idle => some (startCall s i call)
    | _ => none
  | .move i answer =>
    match s.calls i with
    | .idle => none
    | .load h length offset phase => loadStep content s i h length offset answer phase
    | .save h phase => some (saveStep content s i h answer phase)
    | .stat h phase => some (statStep s i h answer phase)
    | .remove h phase => some (removeStep s i h answer phase)
    | .returned => none
  | .lose file => some (s.setCache file none)

/-- The backend has some files, and some of them are cached already. -/
def start (backend cached : File → Bool) : State where
  backend := backend
  cache file :=
    if backend file && cached file && canBeCached file.type then some (content file)
    else none
  inProgress _ := none
  closed _ := false
  calls _ := .idle
  outcomes := []
  halfRemoved _ := false
  removed _ := false

/-! ## Who may run at the same time -/

/-- The call uses the file and is not a `Stat`. -/
def Phase.uses (file : File) : Phase → Bool
  | .load h _ _ _ => h.file = file
  | .save h _ => h.file = file
  | .remove h _ => h.file = file
  | _ => false

def Phase.removes (file : File) : Phase → Bool
  | .remove h _ => h.file = file
  | _ => false

/-- A file is not removed while it is loaded or saved. -/
def Exclusive (s : State) : Event → Prop
  | .start _ (.load h _ _) => ∀ j, (s.calls j).removes h.file = false
  | .start _ (.save h) => ∀ j, (s.calls j).removes h.file = false
  | .start _ (.remove h) => ∀ j, (s.calls j).uses h.file = false
  | _ => True

end Rapi.Cache
