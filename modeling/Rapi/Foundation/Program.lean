import Rapi.Foundation.Slots

/-!
# Concurrent programs

A program is a tree of atomic actions.  What an action does to the shared state
is a relation, so that the environment can choose between outcomes.  A pool runs
the programs of several threads in any interleaving; a thread may start its
program over, as a worker does that takes one job after the other.

The logic below is one of ownership.  Every thread owns a resource, and an
invariant relates the shared state to the sum of all resources.  An action may
change the resource of its own thread only.  Besides, a preorder says what
becomes true and stays true, which is what a thread may remember while the
others go on.
-/

namespace Rapi.Foundation

open Function

inductive Prog (Op : Type) (Res : Op → Type) (α : Type)
  | ret (value : α)
  | act (op : Op) (next : Res op → Prog Op Res α)

namespace Prog

variable {Op : Type} {Res : Op → Type} {α β : Type}

def bind : Prog Op Res α → (α → Prog Op Res β) → Prog Op Res β
  | .ret value, f => f value
  | .act op next, f => .act op fun res => (next res).bind f

instance : Monad (Prog Op Res) where
  pure := .ret
  bind := Prog.bind

def perform (op : Op) : Prog Op Res (Res op) := .act op .ret

def All (P : Op → Prop) : Prog Op Res α → Prop
  | .ret _ => True
  | .act op next => P op ∧ ∀ res, (next res).All P

variable {P : Op → Prop}

theorem All.bind {p : Prog Op Res α} {f : α → Prog Op Res β} (hp : p.All P)
    (hf : ∀ value, (f value).All P) : (p >>= f).All P := by
  induction p with
  | ret value => exact hf value
  | act op next ih => exact ⟨hp.1, fun res => ih res (hp.2 res)⟩

theorem All.perform {op : Op} {f : Res op → Prog Op Res β} (hop : P op)
    (hf : ∀ res, (f res).All P) : (Prog.perform op >>= f).All P := ⟨hop, hf⟩

theorem All.left {p : Prog Op Res α} {f : α → Prog Op Res β} (h : (p >>= f).All P) : p.All P := by
  induction p with
  | ret value => trivial
  | act op next ih => exact ⟨h.1, fun res => ih res (h.2 res)⟩

/-- With the answers that `A` allows the program returns values in `Q`. -/
def Returns (A : (op : Op) → Res op → Prop) (Q : α → Prop) : Prog Op Res α → Prop
  | .ret value => Q value
  | .act op next => ∀ res, A op res → (next res).Returns A Q

end Prog

structure System (σ Op : Type) (Res : Op → Type) where
  exec : (op : Op) → σ → Res op → σ → Prop
  env : σ → σ → Prop

section Semantics

variable {σ Op : Type} {Res : Op → Type} {α β ι : Type}

/-- The program runs from a state to a result and a state, without any other
thread. -/
inductive Runs (sys : System σ Op Res) : Prog Op Res α → σ → α → σ → Prop
  | ret {value : α} {s : σ} : Runs sys (.ret value) s value s
  | act {op : Op} {next : Res op → Prog Op Res α} {s mid s' : σ} {res : Res op}
      {value : α} (hexec : sys.exec op s res mid) (hrest : Runs sys (next res) mid value s') :
      Runs sys (.act op next) s value s'

/-- A thread runs `current`, and `loop` whenever that returns nothing. -/
structure Thread (Op : Type) (Res : Op → Type) (α : Type) where
  loop : Prog Op Res (Option α)
  current : Prog Op Res (Option α)

def Thread.once (p : Prog Op Res α) : Thread Op Res α :=
  ⟨p >>= fun value => pure (some value), p >>= fun value => pure (some value)⟩

structure Pool (σ Op : Type) (Res : Op → Type) (α ι : Type) where
  state : σ
  threads : ι → Thread Op Res α

inductive Pool.Step [DecidableEq ι] (sys : System σ Op Res) :
    Pool σ Op Res α ι → Pool σ Op Res α ι → Prop
  | env {s s' : σ} {threads : ι → Thread Op Res α} (henv : sys.env s s') :
      Pool.Step sys ⟨s, threads⟩ ⟨s', threads⟩
  | act {s s' : σ} {threads : ι → Thread Op Res α} (i : ι)
      {op : Op} {next : Res op → Prog Op Res (Option α)} {res : Res op}
      (hcurrent : (threads i).current = .act op next) (hexec : sys.exec op s res s') :
      Pool.Step sys ⟨s, threads⟩ ⟨s', update threads i ⟨(threads i).loop, next res⟩⟩
  | again {s : σ} {threads : ι → Thread Op Res α} (i : ι)
      (hcurrent : (threads i).current = .ret none) : Pool.Step sys ⟨s, threads⟩
        ⟨s, update threads i ⟨(threads i).loop, (threads i).loop⟩⟩

def Pool.Finished (pool : Pool σ Op Res α ι) (results : ι → α) : Prop :=
  ∀ i, (pool.threads i).current = .ret (some (results i))

variable {sys : System σ Op Res} {s mid s' : σ} {p : Prog Op Res α}
  {f : α → Prog Op Res β} {value : α}

theorem Runs.perform {op : Op} {f : Res op → Prog Op Res β} {value : β} (res : Res op)
    (hexec : sys.exec op s res mid) (hrest : Runs sys (f res) mid value s') :
    Runs sys (Prog.perform op >>= f) s value s' := .act hexec hrest

theorem Runs.bind {first : α} {value : β} (h : Runs sys p s first mid)
    (hrest : Runs sys (f first) mid value s') : Runs sys (p >>= f) s value s' := by
  induction h with
  | ret => exact hrest
  | act hexec _ ih => exact .act hexec (ih hrest)

theorem Runs.bind_inv {value : β} (h : Runs sys (p.bind f) s value s') :
    ∃ first mid, Runs sys p s first mid ∧ Runs sys (f first) mid value s' := by
  induction p generalizing s with
  | ret first => exact ⟨first, s, .ret, h⟩
  | act op next ih =>
    cases h with
    | act hexec hrest =>
      obtain ⟨first, mid, hfirst, hsecond⟩ := ih _ hrest
      exact ⟨first, mid, .act hexec hfirst, hsecond⟩

theorem Runs.perform_inv {op : Op} {f : Res op → Prog Op Res β} {value : β}
    (h : Runs sys (Prog.perform op >>= f) s value s') :
    ∃ res mid, sys.exec op s res mid ∧ Runs sys (f res) mid value s' := by
  cases h with
  | act hexec hrest => exact ⟨_, _, hexec, hrest⟩

theorem Runs.invariant {P : σ → Prop} (hexec : ∀ op s res s', P s → sys.exec op s res s' → P s')
    (h : Runs sys p s value s') (hs : P s) : P s' := by
  induction h with
  | ret => exact hs
  | act hstep _ ih => exact ih (hexec _ _ _ _ hs hstep)

/-- What no action of the program changes is the same in the end. -/
theorem Runs.unchanged {P : Op → Prop} {part : σ → β}
    (hexec : ∀ op s res s', P op → sys.exec op s res s' → part s' = part s)
    (hall : p.All P) (h : Runs sys p s value s') : part s' = part s := by
  induction h with
  | ret => rfl
  | act hstep _ ih => rw [ih (hall.2 _), hexec _ _ _ _ hall.1 hstep]

/-- The actions have only answers that meet the condition. -/
def System.restrict (sys : System σ Op Res) (P : (op : Op) → Res op → Prop) : System σ Op Res where
  exec op s res s' := sys.exec op s res s' ∧ P op res
  env := sys.env

theorem Runs.of_restrict {P : (op : Op) → Res op → Prop}
    (h : Runs (sys.restrict P) p s value s') : Runs sys p s value s' := by
  induction h with
  | ret => exact .ret
  | act hexec _ ih => exact .act hexec.1 ih

theorem Runs.restrict {P : (op : Op) → Res op → Prop} (h : Runs sys p s value s')
    (hP : ∀ op res, P op res) : Runs (sys.restrict P) p s value s' := by
  induction h with
  | ret => exact .ret
  | act hexec _ ih => exact .act ⟨hexec, hP _ _⟩ ih

/-- What every step keeps is kept in any interleaving. -/
theorem Pool.related [DecidableEq ι] {R : σ → σ → Prop} {pool pool' : Pool σ Op Res α ι}
    (hrefl : ∀ s, R s s) (htrans : ∀ s t u, R s t → R t u → R s u)
    (hexec : ∀ op s res s', sys.exec op s res s' → R s s') (henv : ∀ s s', sys.env s s' → R s s')
    (h : Relation.ReflTransGen (Pool.Step sys) pool pool') : R pool.state pool'.state := by
  induction h with
  | refl => exact hrefl _
  | tail _ hstep ih =>
    refine htrans _ _ _ ih ?_
    cases hstep with
    | env hstep => exact henv _ _ hstep
    | act i _ hstep => exact hexec _ _ _ _ hstep
    | again i _ => exact hrefl _

end Semantics

/-! ## The logic -/

/-- `busy` restricts what a thread may own before it ends. -/
structure Logic (σ M : Type) [AddCommMonoid M] where
  inv : σ → M → Prop
  later : σ → σ → Prop
  busy : M → Prop
  refl : ∀ s, later s s
  trans : ∀ {s s' s''}, later s s' → later s' s'' → later s s''
  busy_add : ∀ {m m'}, busy m → busy m' → busy (m + m')

namespace Logic

variable {σ Op : Type} {Res : Op → Type} {α β ι M : Type} [AddCommMonoid M]
  (logic : Logic σ M) (sys : System σ Op Res)

/-- From every later state the program keeps the invariant, whatever the others
own, and ends with the postcondition. -/
def wp : Prog Op Res α → (α → σ → M → Prop) → σ → M → Prop
  | .ret value, Q, s, m => ∀ s', logic.later s s' → Q value s' m
  | .act op next, Q, s, m => logic.busy m ∧
      ∀ s₁ frame, logic.later s s₁ → logic.inv s₁ (m + frame) → ∀ res s', sys.exec op s₁ res s' →
      ∃ m', logic.inv s' (m' + frame) ∧ logic.later s₁ s' ∧ wp (next res) Q s' m'

variable {logic sys} {p : Prog Op Res α} {Q R : α → σ → M → Prop} {s s' : σ} {m : M}

theorem wp_later (h : logic.wp sys p Q s m) (hlater : logic.later s s') :
    logic.wp sys p Q s' m := by
  cases p with
  | ret value => exact fun s₁ hs₁ => h s₁ (logic.trans hlater hs₁)
  | act op next =>
    refine ⟨h.1, fun s₁ frame hs₁ => ?_⟩
    exact h.2 s₁ frame (logic.trans hlater hs₁)

theorem wp_mono (h : logic.wp sys p Q s m)
    (himp : ∀ value s' m', logic.later s s' → Q value s' m' → R value s' m') :
    logic.wp sys p R s m := by
  induction p generalizing s m with
  | ret value => exact fun s₁ hs₁ => himp _ _ _ hs₁ (h s₁ hs₁)
  | act op next ih =>
    refine ⟨h.1, fun s₁ frame hs₁ hinv res s₂ hexec => ?_⟩
    obtain ⟨m', hinv', hs₂, hnext⟩ := h.2 s₁ frame hs₁ hinv res s₂ hexec
    refine ⟨m', hinv', hs₂, ih res hnext ?_⟩
    intro value s₃ m'' hs₃
    exact himp value s₃ m'' (logic.trans (logic.trans hs₁ hs₂) hs₃)

theorem wp_stable (h : logic.wp sys p Q s m) :
    logic.wp sys p (fun value s' m' => ∀ s'', logic.later s' s'' → Q value s'' m') s m := by
  induction p generalizing s m with
  | ret value => exact fun s₁ hs₁ s₂ hs₂ => h s₂ (logic.trans hs₁ hs₂)
  | act op next ih =>
    refine ⟨h.1, fun s₁ frame hs₁ hinv res s₂ hexec => ?_⟩
    obtain ⟨m', hinv', hs₂, hnext⟩ := h.2 s₁ frame hs₁ hinv res s₂ hexec
    exact ⟨m', hinv', hs₂, ih res hnext⟩

theorem wp_bind {f : α → Prog Op Res β} {Q : β → σ → M → Prop}
    (h : logic.wp sys p (fun value s m => logic.wp sys (f value) Q s m) s m) :
    logic.wp sys (p >>= f) Q s m := by
  induction p generalizing s m with
  | ret value => exact h s (logic.refl s)
  | act op next ih =>
    refine ⟨h.1, fun s₁ frame hs₁ hinv res s₂ hexec => ?_⟩
    obtain ⟨m', hinv', hs₂, hnext⟩ := h.2 s₁ frame hs₁ hinv res s₂ hexec
    exact ⟨m', hinv', hs₂, ih res hnext⟩

theorem wp_frame {rest : M} (h : logic.wp sys p Q s m) (hrest : logic.busy rest) :
    logic.wp sys p (fun value s' m' => ∃ used, m' = used + rest ∧
      Q value s' used) s (m + rest) := by
  induction p generalizing s m with
  | ret value => exact fun s₁ hs₁ => ⟨m, rfl, h s₁ hs₁⟩
  | act op next ih =>
    refine ⟨logic.busy_add h.1 hrest, fun s₁ frame hs₁ hinv res s₂ hexec => ?_⟩
    rw [add_assoc] at hinv
    obtain ⟨m', hinv', hs₂, hnext⟩ := h.2 s₁ (rest + frame) hs₁ hinv res s₂ hexec
    exact ⟨m' + rest, by rwa [add_assoc], hs₂, ih res hnext⟩

theorem wp_pure {value : α} (h : ∀ s', logic.later s s' → Q value s' m) :
    logic.wp sys (pure value) Q s m := h

theorem wp_perform {op : Op} {f : Res op → Prog Op Res β} {Q : β → σ → M → Prop}
    (hbusy : logic.busy m) (h : ∀ s₁ frame, logic.later s s₁ → logic.inv s₁ (m + frame) →
      ∀ res s', sys.exec op s₁ res s' → ∃ m', logic.inv s' (m' + frame) ∧ logic.later s₁ s' ∧
          logic.wp sys (f res) Q s' m') : logic.wp sys (Prog.perform op >>= f) Q s m := ⟨hbusy, h⟩

theorem wp_runs {frame : M} {value : α} (h : logic.wp sys p Q s m)
    (hinv : logic.inv s (m + frame)) (hruns : Runs sys p s value s') :
    ∃ m', logic.inv s' (m' + frame) ∧ logic.later s s' ∧ Q value s' m' := by
  induction hruns generalizing m with
  | @ret value s => exact ⟨m, hinv, logic.refl s, h s (logic.refl s)⟩
  | @act op next s mid s' res value hexec hrest ih =>
    obtain ⟨m₁, hinv₁, hmid, hnext⟩ := h.2 s frame (logic.refl s) hinv res mid hexec
    obtain ⟨m', hinv', hlater, hvalue⟩ := ih hnext hinv₁
    exact ⟨m', hinv', logic.trans hmid hlater, hvalue⟩

/-- The postcondition of a thread: what it may own when it starts over, and
what holds when it ends. -/
def loopPost (idle : M → Prop) (Q : α → σ → M → Prop) : Option α → σ → M → Prop
  | none, _, m => idle m
  | some value, s, m => Q value s m

variable (logic sys) in
structure Safe (idle : M → Prop) (Q : α → σ → M → Prop)
    (thread : Thread Op Res α) (s : σ) (m : M) : Prop where
  current : logic.wp sys thread.current (loopPost idle Q) s m
  loop : ∀ m, idle m → logic.wp sys thread.loop (loopPost idle Q) s m

theorem Safe.once (h : logic.wp sys p Q s m) : logic.Safe sys (fun _ => False) Q (.once p) s m := by
  have hwp : logic.wp sys (p >>= fun value => pure (some value))
      (loopPost (fun _ => False) Q) s m := by
    exact wp_bind (wp_mono (wp_stable h) fun _ _ _ _ hQ => wp_pure hQ)
  exact ⟨hwp, nofun⟩

theorem Safe.loop_forever {idle : M → Prop} {loop : Prog Op Res (Option α)}
    (h : ∀ m, idle m → logic.wp sys loop (loopPost idle Q) s m)
    (hm : idle m) : logic.Safe sys idle Q ⟨loop, loop⟩ s m := ⟨h m hm, h⟩

theorem Safe.later {idle : M → Prop} {thread : Thread Op Res α}
    (h : logic.Safe sys idle Q thread s m) (hlater : logic.later s s') :
    logic.Safe sys idle Q thread s' m :=
  ⟨wp_later h.current hlater, fun m hm => wp_later (h.loop m hm) hlater⟩

/-! ## Pools -/

variable [Fintype ι] [DecidableEq ι]

variable (logic sys) in
def PoolSafe (idle : ι → M → Prop) (Q : ι → α → σ → M → Prop) (pool : Pool σ Op Res α ι) : Prop :=
  ∃ own : ι → M, logic.inv pool.state (∑ i, own i) ∧
    ∀ i, logic.Safe sys (idle i) (Q i) (pool.threads i) pool.state (own i)

variable {idle : ι → M → Prop} {Q : ι → α → σ → M → Prop} {pool pool' : Pool σ Op Res α ι}
  (henv : ∀ s s' m, logic.inv s m → sys.env s s' → logic.inv s' m ∧ logic.later s s')
include henv

theorem PoolSafe.step (h : logic.PoolSafe sys idle Q pool) (hstep : Pool.Step sys pool pool') :
    logic.PoolSafe sys idle Q pool' ∧ logic.later pool.state pool'.state := by
  obtain ⟨own, hinv, hsafe⟩ := h
  cases hstep with
  | @env s s' threads hstep =>
    obtain ⟨hinv', hlater⟩ := henv s s' _ hinv hstep
    exact ⟨⟨own, hinv', fun i => (hsafe i).later hlater⟩, hlater⟩
  | @act s s' threads i op next res hcurrent hexec =>
    have hwp := (hsafe i).current
    rw [show (threads i).current = _ from hcurrent] at hwp
    rw [← Finset.add_sum_erase _ _ (Finset.mem_univ i)] at hinv
    obtain ⟨m', hinv', hlater, hnext⟩ := hwp.2 s _ (logic.refl s) hinv res s' hexec
    refine ⟨⟨update own i m', ?_, ?_⟩, hlater⟩
    · rw [sum_update_slot fun m => m]
      exact hinv'
    · intro j
      by_cases hj : j = i
      · subst hj
        simp only [update_self]
        exact ⟨hnext, fun m hm => wp_later ((hsafe j).loop m hm) hlater⟩
      · simp only [update_of_ne hj]
        exact (hsafe j).later hlater
  | @again s threads i hcurrent =>
    refine ⟨⟨own, hinv, ?_⟩, logic.refl s⟩
    intro j
    by_cases hj : j = i
    · subst hj
      have hidle := (hsafe j).current
      rw [show (threads j).current = _ from hcurrent] at hidle
      simp only [update_self]
      exact .loop_forever (hsafe j).loop (hidle s (logic.refl s))
    · simp only [update_of_ne hj]
      exact hsafe j

theorem PoolSafe.steps (h : logic.PoolSafe sys idle Q pool)
    (hsteps : Relation.ReflTransGen (Pool.Step sys) pool pool') :
    logic.PoolSafe sys idle Q pool' ∧ logic.later pool.state pool'.state := by
  induction hsteps with
  | refl => exact ⟨h, logic.refl _⟩
  | tail _ hstep ih =>
    obtain ⟨hsafe, hlater⟩ := ih
    obtain ⟨hsafe', hlater'⟩ := hsafe.step henv hstep
    exact ⟨hsafe', logic.trans hlater hlater'⟩

omit henv [DecidableEq ι] in
theorem PoolSafe.current (h : logic.PoolSafe sys idle Q pool) :
    ∃ own : ι → M, logic.inv pool.state (∑ i, own i) ∧
      ∀ i, logic.busy (own i) ∨ idle i (own i) ∨
        ∃ value, (pool.threads i).current = .ret (some value) ∧
          Q i value pool.state (own i) := by
  obtain ⟨own, hinv, hsafe⟩ := h
  refine ⟨own, hinv, fun i => ?_⟩
  have hwp := (hsafe i).current
  cases hcurrent : (pool.threads i).current with
  | act op next =>
    rw [hcurrent] at hwp
    exact Or.inl hwp.1
  | ret value =>
    rw [hcurrent] at hwp
    cases value with
    | none => exact Or.inr (Or.inl (hwp _ (logic.refl _)))
    | some value => exact Or.inr (Or.inr ⟨value, rfl, hwp _ (logic.refl _)⟩)

omit henv [DecidableEq ι] in
theorem PoolSafe.finished (h : logic.PoolSafe sys idle Q pool)
    {results : ι → α} (hfinished : pool.Finished results) :
    ∃ own : ι → M, logic.inv pool.state (∑ i, own i) ∧
      ∀ i, Q i (results i) pool.state (own i) := by
  obtain ⟨own, hinv, hsafe⟩ := h
  refine ⟨own, hinv, fun i => ?_⟩
  have hwp := (hsafe i).current
  rw [hfinished i] at hwp
  exact hwp _ (logic.refl _)

end Logic

end Rapi.Foundation
