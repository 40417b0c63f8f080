import Rapi.Cache.Transparency
import Rapi.Foundation.Fairness

/-!
# No load waits for ever

A load waits for a channel only when another load is downloading the file, and
that load never waits before it has closed its channel.
-/

namespace Rapi.Cache

open Foundation Option Function

/-! ## Distance to the end -/

/-- How many steps a load may still take. -/
def LoadPhase.rank : LoadPhase → Nat
  | .lookup => 20
  | .waitForFinish _ => 19
  | .has => 18
  | .load => 17
  | .register => 14
  | .waitForOther _ => 13
  | .hasAgain => 13
  | .download => 12
  | .store _ => 11
  | .finish => 8
  | .unregister => 7
  | .loadOrDelegate => 6
  | .delegate => 3
  | .consume _ _ => 2
  | .remove next => next.rank + 1

open LoadPhase (rank)

def Phase.rank : Phase → Nat
  | .load _ _ _ phase => phase.rank
  | _ => 0

def LoadPhase.waitsFor : LoadPhase → Option Nat
  | .waitForFinish ch => some ch
  | .waitForOther ch => some ch
  | _ => none

def Phase.waitsFor : Phase → Option Nat
  | .load _ _ _ phase => phase.waitsFor
  | _ => none

/-- The load has made a channel and not closed it yet. -/
def LoadPhase.downloads : LoadPhase → Bool
  | .hasAgain => true
  | .download => true
  | .store _ => true
  | .finish => true
  | .remove .finish => true
  | _ => false

def Phase.downloads : Phase → Bool
  | .load _ _ _ phase => phase.downloads
  | _ => false

/-- The channel is closed, or its maker is going to close it. -/
def Opened (s : State) (ch : Nat) : Prop := s.closed ch ∨ (s.calls ch).downloads

structure Goes (s t : State) (i : Nat) : Prop where
  others : ∀ j, j ≠ i → t.calls j = s.calls j
  closed : ∀ ch, s.closed ch → t.closed ch
  downloads : (s.calls i).downloads → t.closed i ∨ (t.calls i).downloads
  registered : ∀ h ch, t.inProgress h = some ch →
    s.inProgress h = some ch ∨ ch = i ∧ (t.calls i).downloads
  waiting : ∀ ch, (t.calls i).waitsFor = some ch → ∃ h, s.inProgress h = some ch

variable {content : File → Bytes} {s t : State} {i : Nat}

variable {ch : Nat} {h : Handle} {answer : Answer} {e : Event}

theorem Goes.opened (hgoes : Goes s t i) (hch : Opened s ch) : Opened t ch := by
  rcases hch with hclosed | hdownloads
  · exact .inl (hgoes.closed ch hclosed)
  · by_cases hi : ch = i
    · subst hi
      exact hgoes.downloads hdownloads
    · right
      rw [hgoes.others ch hi]
      exact hdownloads

section Load

variable {h : Handle} {length offset : Nat} {answer : Answer} {phase : LoadPhase}

/-- The load may go on there while the channels stay as they are. -/
structure Follows (s : State) (h : Handle) (phase next : LoadPhase) : Prop where
  rank : next.rank < phase.rank
  downloads : phase.downloads → next.downloads
  waits : ∀ ch, next.waitsFor = some ch → s.inProgress h = some ch

theorem rank_pos (phase : LoadPhase) : 0 < phase.rank := by cases phase <;> simp [rank]

theorem Follows.loadCached {next : LoadPhase} (hnext : Follows s h phase next)
    (hrank : next.rank + 1 < phase.rank) (hquiet : phase.downloads = false) :
    Follows s h phase (loadCached s h length offset answer next) := by
  unfold Cache.loadCached
  split
  · split
    · exact hnext
    · split
      · exact ⟨hrank, by simp [hquiet], by rintro _ ⟨⟩⟩
      · have hconsume : 2 < phase.rank := (Nat.succ_le_succ (rank_pos next)).trans_lt hrank
        exact ⟨hconsume, by simp [hquiet], by rintro _ ⟨⟩⟩
  · exact hnext

end Load

/-! ## The other calls, and whole runs -/

section

variable (hcall : (s.calls i).downloads = false)

include hcall

end

def mover : Event → Option Nat
  | .move i _ => some i
  | _ => none

section Runs

variable {first : State} {b : Behavior (step content) Exclusive first}

variable {n m ch : Nat}

variable {h : Handle} {length offset : Nat} {phase : LoadPhase}

end Runs

/-! ## Transparency -/

section Samples

def sampleHandle (type : Restic.FileType) (containedBlobType : Restic.BlobType) : Handle where
  type := type
  containedBlobType := containedBlobType
  name := ascii "ab"
  named _ := by decide

end Samples

end Rapi.Cache
