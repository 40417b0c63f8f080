import Rapi.Foundation.Program

/-!
# A producer and a consumer

Two threads share a channel.  The producer sends values and closes the channel;
the consumer receives values until the channel is closed and empty.  Besides, the
producer may ask the environment, and the consumer works on a state of its own.
When the context is cancelled, the producer may not send a value that it wants to
send.

In the logic the producer owns the list of what it has sent, and the consumer what
it has received together with its own state.  What is known about all values must
be shown where the channel is closed, and is known where the consumer finds it
closed.
-/

namespace Rapi.Foundation.Pipe

open Multiset

inductive Op (P C α : Type)
  | produce (op : P)
  | send (value : α)
  | close
  | consume (op : C)
  | receive

section Semantics

variable {P C α σ : Type} (PRes : P → Type) (CRes : C → Type)

def Op.Res : Op P C α → Type
  | .produce op => PRes op
  | .send _ => Bool
  | .close => Unit
  | .consume op => CRes op
  | .receive => Option α

/-- `received` is the history of the consumer. -/
structure State (σ α : Type) where
  received : List α
  queue : List α
  closed : Bool
  cancelled : Bool
  own : σ

def State.start (own : σ) : State σ α := ⟨[], [], false, false, own⟩

def State.sent (s : State σ α) : List α := s.received ++ s.queue

/-- The size of the channel, what the environment answers to the producer, what
the actions of the consumer do, and when the context may be cancelled. -/
structure Setting (σ α : Type) (PRes : P → Type) (CRes : C → Type) where
  capacity : Nat
  answers : (op : P) → PRes op → Prop
  consumer : (op : C) → σ → CRes op → σ → Prop
  mayCancel : State σ α → Prop

variable {PRes CRes}

def exec (c : Setting σ α PRes CRes) :
    (op : Op P C α) → State σ α → op.Res PRes CRes → State σ α → Prop
  | .produce op, s, res, s' => c.answers op res ∧ s' = s
  | .send value, s, sent, s' =>
    (sent = true ∧ s.closed = false ∧ s.queue.length < c.capacity ∧
      s' = { s with queue := s.queue ++ [value] }) ∨
    (sent = false ∧ s.cancelled ∧ s' = s)
  | .close, s, _, s' => s' = { s with closed := true }
  | .consume op, s, res, s' => ∃ own, c.consumer op s.own res own ∧ s' = { s with own := own }
  | .receive, s, res, s' =>
    (∃ value rest, s.queue = value :: rest ∧ res = some value ∧
      s' = { s with received := s.received ++ [value], queue := rest }) ∨
    (s.queue = [] ∧ s.closed ∧ res = none ∧ s' = s)

def system (c : Setting σ α PRes CRes) : System (State σ α) (Op P C α) (Op.Res PRes CRes) where
  exec := exec c
  env s s' := c.mayCancel s ∧ s' = { s with cancelled := true }

abbrev PipeM (α : Type) (PRes : P → Type) (CRes : C → Type) := Prog (Op P C α) (Op.Res PRes CRes)

def produce (op : P) : PipeM α PRes CRes (PRes op) := Prog.perform (Op.produce op)

def send (value : α) : PipeM α PRes CRes Bool := Prog.perform (Op.send value)

def close : PipeM α PRes CRes Unit := Prog.perform Op.close

def consume (op : C) : PipeM α PRes CRes (CRes op) := Prog.perform (Op.consume op)

def receive : PipeM α PRes CRes (Option α) := Prog.perform Op.receive

inductive Party
  | producer
  | consumer
  deriving DecidableEq

instance : Fintype Party where
  elems := {.producer, .consumer}
  complete party := by cases party <;> decide

/-- The producer runs once, and the consumer until it returns something. -/
def start {β : Type} (producer : PipeM α PRes CRes β) (loop : PipeM α PRes CRes (Option β))
    (own : σ) : Pool (State σ α) (Op P C α) (Op.Res PRes CRes) β Party where
  state := .start own
  threads
    | .producer => .once producer
    | .consumer => ⟨loop, loop⟩

end Semantics

/-! ## The logic -/

section Logic

variable {P C α σ : Type} {PRes : P → Type} {CRes : C → Type}

/-- What the producer has sent, as long as the channel is open, and what the
consumer has received and its own state. -/
abbrev Share (σ α : Type) := Multiset (Option (List α)) × Multiset (List α × σ)

def sending (sent : List α) : Share σ α := ({some sent}, 0)

def ended : Share σ α := ({none}, 0)

def reading (received : List α) (own : σ) : Share σ α := (0, {(received, own)})

def State.producer (s : State σ α) : Option (List α) :=
  if s.closed then none else some s.sent

structure Sound (full : List α → Prop) (s : State σ α) (m : Share σ α) : Prop where
  producer : m.1 = {s.producer}
  consumer : m.2 = {(s.received, s.own)}
  full_of_closed : s.closed → full s.sent
  closed_of_cancelled : s.cancelled → s.closed

def logic (full : List α → Prop) : Logic (State σ α) (Share σ α) where
  inv := Sound full
  later _ _ := True
  busy _ := True
  refl _ := trivial
  trans _ _ := trivial
  busy_add _ _ := trivial

theorem singleton_add_eq {β : Type} {a b : β} {rest : Multiset β}
    (h : {a} + rest = ({b} : Multiset β)) : a = b ∧ rest = 0 := by
  rw [singleton_add] at h
  have hcard := congrArg Multiset.card h
  rw [card_cons, card_singleton, Nat.add_eq_right, card_eq_zero] at hcard
  rw [hcard] at h
  exact ⟨singleton_inj.mp h, hcard⟩

variable {full : List α → Prop} {s : State σ α} {frame : Share σ α}

variable {sent received : List α} {own : σ}

theorem Sound.of_sending (h : Sound full s (sending sent + frame)) :
    s.closed = false ∧ s.sent = sent ∧ frame.1 = 0 := by
  obtain ⟨hproducer, hframe⟩ := singleton_add_eq h.producer
  rw [State.producer] at hproducer
  split at hproducer
  · cases hproducer
  · rename_i hclosed
    exact ⟨Bool.not_eq_true _ ▸ hclosed, (Option.some.inj hproducer).symm, hframe⟩

theorem Sound.of_reading (h : Sound full s (reading received own + frame)) :
    s.received = received ∧ s.own = own ∧ frame.2 = 0 := by
  obtain ⟨hconsumer, hframe⟩ := singleton_add_eq h.consumer
  obtain ⟨rfl, rfl⟩ := Prod.mk.inj hconsumer
  exact ⟨rfl, rfl, hframe⟩

variable {c : Setting σ α PRes CRes} {β : Type} {Q : β → State σ α → Share σ α → Prop}

theorem wp_produce {op : P} {f : PRes op → PipeM α PRes CRes β} {m : Share σ α}
    (h : ∀ res, c.answers op res → ∀ s, (logic full).wp (system c) (f res) Q s m) (s : State σ α) :
    (logic full).wp (system c) (produce op >>= f) Q s m := by
  refine ⟨trivial, fun s₁ frame _ hinv res s' hexec => ?_⟩
  obtain ⟨hres, rfl⟩ := hexec
  exact ⟨m, hinv, trivial, h res hres s'⟩

theorem wp_send {value : α} {f : Bool → PipeM α PRes CRes β}
    (h : ∀ s, (logic full).wp (system c) (f true) Q s (sending (sent ++ [value]))) (s : State σ α) :
    (logic full).wp (system c) (send value >>= f) Q s (sending sent) := by
  refine ⟨trivial, fun s₁ frame _ hinv res s' hexec => ?_⟩
  obtain ⟨hopen, hsent, hframe⟩ := Sound.of_sending hinv
  obtain ⟨rfl, -, -, rfl⟩ | ⟨-, hcancelled, -⟩ := hexec
  · refine ⟨sending (sent ++ [value]), ⟨?_, hinv.consumer, ?_, ?_⟩, trivial, h _⟩
    · rw [← hsent]
      simp [sending, hframe, State.producer, hopen, State.sent]
    · intro hclosed
      exact absurd (hopen.symm.trans hclosed) Bool.false_ne_true
    · exact hinv.closed_of_cancelled
  · -- the context is cancelled, but not before the channel is closed
    have hclosed := hinv.closed_of_cancelled hcancelled
    exact absurd (hopen.symm.trans hclosed) Bool.false_ne_true

theorem wp_close {f : Unit → PipeM α PRes CRes β} (hfull : full sent)
    (h : ∀ s, (logic full).wp (system c) (f ()) Q s ended) (s : State σ α) :
    (logic full).wp (system c) (close >>= f) Q s (sending sent) := by
  refine ⟨trivial, fun s₁ frame _ hinv res s' hexec => ?_⟩
  obtain ⟨hopen, hsent, hframe⟩ := Sound.of_sending hinv
  obtain rfl : s' = { s₁ with closed := true } := hexec
  refine ⟨ended, ⟨?_, hinv.consumer, ?_, fun _ => rfl⟩, trivial, h _⟩
  · simp [ended, hframe, State.producer]
  · intro _
    rw [← hsent] at hfull
    exact hfull

theorem wp_receive {f : Option α → PipeM α PRes CRes β}
    (hvalue : ∀ value s, (logic full).wp (system c) (f (some value)) Q s
      (reading (received ++ [value]) own)) (hclosed : full received → ∀ s,
      (logic full).wp (system c) (f none) Q s (reading received own)) (s : State σ α) :
    (logic full).wp (system c) (receive >>= f) Q s (reading received own) := by
  refine ⟨trivial, fun s₁ frame _ hinv res s' hexec => ?_⟩
  obtain ⟨hreceived, hown, hframe⟩ := Sound.of_reading hinv
  obtain ⟨value, rest, hqueue, rfl, rfl⟩ | ⟨hqueue, hclosedNow, rfl, rfl⟩ := hexec
  · have hsent : s₁.received ++ [value] ++ rest = s₁.sent := by
      rw [State.sent, hqueue, List.append_assoc, List.singleton_append]
    refine ⟨reading (received ++ [value]) own, ⟨?_, ?_, ?_, ?_⟩, trivial, hvalue value _⟩
    · have hproducer := hinv.producer
      rw [State.producer, ← hsent] at hproducer
      exact hproducer
    · simp [reading, hframe, hreceived, hown]
    · intro hclosedNow
      have hfull := hinv.full_of_closed hclosedNow
      rw [← hsent] at hfull
      exact hfull
    · exact hinv.closed_of_cancelled
  · have hfull := hinv.full_of_closed hclosedNow
    rw [State.sent, hqueue, List.append_nil, hreceived] at hfull
    exact ⟨reading received own, hinv, trivial, hclosed hfull _⟩

theorem wp_consume {op : C} {f : CRes op → PipeM α PRes CRes β}
    (h : ∀ res own', c.consumer op own res own' → ∀ s,
      (logic full).wp (system c) (f res) Q s (reading received own')) (s : State σ α) :
    (logic full).wp (system c) (consume op >>= f) Q s (reading received own) := by
  refine ⟨trivial, fun s₁ frame _ hinv res s' hexec => ?_⟩
  obtain ⟨hreceived, hown, hframe⟩ := Sound.of_reading hinv
  obtain ⟨own', hconsumer, rfl⟩ := hexec
  rw [hown] at hconsumer
  refine ⟨reading received own', ⟨hinv.producer, ?_, hinv.full_of_closed,
    hinv.closed_of_cancelled⟩, trivial, h res own' hconsumer _⟩
  simp [reading, hframe, hreceived]

/-- What holds of what the consumer has received and of its state. -/
def Reads (J : List α → σ → Prop) (m : Share σ α) : Prop :=
  ∃ received own, m = reading received own ∧ J received own

/-- When the consumer returns, what it has shown holds, whatever the producer does
then.  The context is not cancelled while the channel is open. -/
theorem returned {J : List α → σ → Prop} {R : β → List α → σ → Prop}
    {producer : PipeM α PRes CRes β} {loop : PipeM α PRes CRes (Option β)}
    (hcalm : ∀ s, c.mayCancel s → s.closed)
    (hproducer : ∀ s, (logic full).wp (system c) producer (fun _ _ _ => True) s (sending []))
    (hloop : ∀ received own, J received own → ∀ s, (logic full).wp (system c) loop
        (Logic.loopPost (Reads J) fun value _ => Reads (R value)) s
        (reading received own)) (hown : J [] own)
    {pool : Pool (State σ α) (Op P C α) (Op.Res PRes CRes) β Party}
    (hsteps : Relation.ReflTransGen (Pool.Step (system c)) (start producer loop own) pool)
    {value : β} (hreturned : (pool.threads .consumer).current = .ret (some value)) :
    R value pool.state.received pool.state.own := by
  let idle : Party → Share σ α → Prop
    | .producer => fun _ => False
    | .consumer => Reads J
  let post : Party → β → State σ α → Share σ α → Prop
    | .producer => fun _ _ _ => True
    | .consumer => fun value _ => Reads (R value)
  let first : Party → Share σ α
    | .producer => sending []
    | .consumer => reading [] own
  have hsum : ∀ share : Party → Share σ α, ∑ i, share i = share .producer + share .consumer := by
    intro share
    have huniv : (Finset.univ : Finset Party) = {.producer, .consumer} := rfl
    rw [huniv, Finset.sum_pair (by decide)]
  have hstart : (logic full).PoolSafe (system c) idle post (start producer loop own) := by
    refine ⟨first, ?_, fun i => ?_⟩
    · rw [hsum]
      exact ⟨rfl, rfl, fun hclosed => absurd hclosed Bool.false_ne_true,
        fun hcancelled => absurd hcancelled Bool.false_ne_true⟩
    · cases i with
      | producer => exact Logic.Safe.once (hproducer _)
      | consumer =>
        refine Logic.Safe.loop_forever (fun m hm => ?_) ⟨[], own, rfl, hown⟩
        obtain ⟨received, own', rfl, hJ⟩ := hm
        exact hloop received own' hJ _
  have henv : ∀ s s' m, (logic full).inv s m → (system c).env s s' →
      (logic full).inv s' m ∧ (logic full).later s s' := by
    rintro s s' m hinv ⟨hcancel, rfl⟩
    exact ⟨⟨hinv.producer, hinv.consumer, hinv.full_of_closed, fun _ => hcalm s hcancel⟩, trivial⟩
  obtain ⟨⟨shares, hinv, hsafe⟩, -⟩ := hstart.steps henv hsteps
  have hpost := (hsafe .consumer).current
  rw [hreturned] at hpost
  obtain ⟨received, own', hshare, hR⟩ := hpost pool.state trivial
  rw [hsum, hshare, add_comm] at hinv
  obtain ⟨rfl, rfl, -⟩ := Sound.of_reading hinv
  exact hR

end Logic

end Rapi.Foundation.Pipe
