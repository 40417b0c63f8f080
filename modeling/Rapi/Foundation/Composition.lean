import Rapi.Foundation.Program

/-!
# Programs on top of others

A system is extended by a second state with actions of its own.  These read the
state of the system below and do not change it.  A program of the system below
runs in the extended system as it is, and what was proved about it there can be
used: the upper invariant may depend on the lower state, as long as it survives
whatever the lower logic lets happen.
-/

namespace Rapi.Foundation

variable {σ τ Op Op' : Type} {Res : Op → Type} {Res' : Op' → Type} {α β M N : Type}

namespace Prog

def lift : Prog Op Res α → Prog (Op ⊕ Op') (Sum.elim Res Res') α
  | .ret value => .ret value
  | .act op next => .act (.inl op) fun res => (next res).lift

def onTop (op : Op') : Prog (Op ⊕ Op') (Sum.elim Res Res') (Res' op) := .act (.inr op) .ret

theorem All.lift {P : Op ⊕ Op' → Prop} (h : ∀ op, P (.inl op)) (p : Prog Op Res α) :
    (p.lift : Prog (Op ⊕ Op') (Sum.elim Res Res') α).All P := by
  induction p with
  | ret value => trivial
  | act op next ih => exact ⟨h op, ih⟩

end Prog

def System.extend (sys : System σ Op Res) (exec : (op : Op') → σ → τ → Res' op → τ → Prop)
    (env : τ → τ → Prop) : System (σ × τ) (Op ⊕ Op') (Sum.elim Res Res') where
  exec
    | .inl op, s, res, s' => sys.exec op s.1 res s'.1 ∧ s'.2 = s.2
    | .inr op, s, res, s' => s'.1 = s.1 ∧ exec op s.1 s.2 res s'.2
  env s s' := sys.env s.1 s'.1 ∧ s'.2 = s.2 ∨ s'.1 = s.1 ∧ env s.2 s'.2

variable [AddCommMonoid M] [AddCommMonoid N]

/-- A resource that nobody owns, and nobody can get. -/
def Logic.framed (logic : Logic σ M) (rest : M) : Logic σ M where
  inv s m := logic.inv s (m + rest)
  later := logic.later
  busy := logic.busy
  refl := logic.refl
  trans := logic.trans
  busy_add := logic.busy_add

theorem Logic.wp_framed {logic : Logic σ M} {sys : System σ Op Res}
    {p : Prog Op Res α} {Q : α → σ → M → Prop} {s : σ} {m rest : M}
    (h : logic.wp sys p Q s m) : (logic.framed rest).wp sys p Q s m := by
  induction p generalizing s m with
  | ret value => exact h
  | act op next ih =>
    refine ⟨h.1, fun s₁ frame hs₁ hinv res s₂ hexec => ?_⟩
    change logic.inv s₁ (m + frame + rest) at hinv
    rw [add_assoc] at hinv
    obtain ⟨m', hinv', hs₂, hnext⟩ := h.2 s₁ (frame + rest) hs₁ hinv res s₂ hexec
    refine ⟨m', ?_, hs₂, ih res hnext⟩
    change logic.inv s₂ (m' + frame + rest)
    rwa [add_assoc]

/-- What the actions on top keep. -/
structure Upper (logic : Logic σ M) (τ N : Type) [AddCommMonoid N] where
  inv : σ → τ → N → Prop
  later : τ → τ → Prop
  refl : ∀ t, later t t
  trans : ∀ {t t' t''}, later t t' → later t' t'' → later t t''
  stable : ∀ {s s' t n}, logic.later s s' → inv s t n → inv s' t n

def Logic.extend (logic : Logic σ M) (upper : Upper logic τ N) : Logic (σ × τ) (M × N) where
  inv s m := logic.inv s.1 m.1 ∧ upper.inv s.1 s.2 m.2
  later s s' := logic.later s.1 s'.1 ∧ upper.later s.2 s'.2
  busy m := logic.busy m.1
  refl s := ⟨logic.refl s.1, upper.refl s.2⟩
  trans h h' := ⟨logic.trans h.1 h'.1, upper.trans h.2 h'.2⟩
  busy_add := logic.busy_add

namespace Logic

variable {logic : Logic σ M} {upper : Upper logic τ N} {sys : System σ Op Res}
  {exec : (op : Op') → σ → τ → Res' op → τ → Prop} {env : τ → τ → Prop}
  {s : σ} {t : τ} {m : M} {n : N}

theorem wp_lift {p : Prog Op Res α} {Q : α → σ → M → Prop} (h : logic.wp sys p Q s m) :
    (logic.extend upper).wp (sys.extend exec env) p.lift
      (fun value s' m' => Q value s'.1 m'.1 ∧ m'.2 = n) (s, t) (m, n) := by
  induction p generalizing s t m with
  | ret value => exact fun s' hlater => ⟨h s'.1 hlater.1, rfl⟩
  | act op next ih =>
    refine ⟨h.1, ?_⟩
    rintro ⟨s₁, t₁⟩ frame ⟨hs₁, ht₁⟩ ⟨hinv, hupper⟩ res ⟨s₂, t₂⟩ ⟨hexec, rfl⟩
    obtain ⟨m', hinv', hs₂, hnext⟩ := h.2 s₁ frame.1 hs₁ hinv res s₂ hexec
    exact ⟨(m', n), ⟨hinv', upper.stable hs₂ hupper⟩, ⟨hs₂, upper.refl _⟩, ih res hnext⟩

theorem wp_onTop {op : Op'} {f : Res' op → Prog (Op ⊕ Op') (Sum.elim Res Res') β}
    {Q : β → σ × τ → M × N → Prop} (hbusy : logic.busy m)
    (h : ∀ s₁ t₁ frame, logic.later s s₁ → upper.later t t₁ →
      upper.inv s₁ t₁ (n + frame) → ∀ res t', exec op s₁ t₁ res t' →
      ∃ n', upper.inv s₁ t' (n' + frame) ∧ upper.later t₁ t' ∧
        (logic.extend upper).wp (sys.extend exec env) (f res) Q (s₁, t') (m, n')) :
    (logic.extend upper).wp (sys.extend exec env) (Prog.onTop op >>= f) Q (s, t) (m, n) := by
  refine ⟨hbusy, ?_⟩
  rintro ⟨s₁, t₁⟩ frame ⟨hs₁, ht₁⟩ ⟨hinv, hupper⟩ res ⟨s₂, t₂⟩ ⟨rfl, hexec⟩
  obtain ⟨n', hupper', ht₂, hnext⟩ := h _ t₁ frame.2 hs₁ ht₁ hupper res t₂ hexec
  exact ⟨(m, n'), ⟨hinv, hupper'⟩, ⟨logic.refl _, ht₂⟩, hnext⟩

theorem wp_read {op : Op'} {f : Res' op → Prog (Op ⊕ Op') (Sum.elim Res Res') β}
    {Q : β → σ × τ → M × N → Prop} (hbusy : logic.busy m)
    (hread : ∀ s t res t', exec op s t res t' → t' = t)
    (h : ∀ s₁ t₁ frame res, logic.later s s₁ → upper.later t t₁ →
      upper.inv s₁ t₁ (n + frame) → exec op s₁ t₁ res t₁ →
      (logic.extend upper).wp (sys.extend exec env) (f res) Q (s₁, t₁) (m, n)) :
    (logic.extend upper).wp (sys.extend exec env) (Prog.onTop op >>= f) Q (s, t) (m, n) := by
  refine wp_onTop hbusy fun s₁ t₁ frame hs ht hinv res t' hexec => ?_
  obtain rfl := hread _ _ _ _ hexec
  exact ⟨n, hinv, upper.refl _, h s₁ _ frame res hs ht hinv hexec⟩

theorem extend_env (hbelow : ∀ s s' m, logic.inv s m → sys.env s s' →
      logic.inv s' m ∧ logic.later s s') (habove : ∀ s t t' n, upper.inv s t n → env t t' →
      upper.inv s t' n ∧ upper.later t t') (x x' : σ × τ) (own : M × N)
    (hinv : (logic.extend upper).inv x own) (henv : (sys.extend exec env).env x x') :
    (logic.extend upper).inv x' own ∧ (logic.extend upper).later x x' := by
  obtain ⟨s, t⟩ := x
  obtain ⟨s', t'⟩ := x'
  obtain ⟨hlower, hupper⟩ := hinv
  rcases henv with ⟨henv, ht⟩ | ⟨hs, henv⟩
  · obtain ⟨hlower', hlater⟩ := hbelow s s' own.1 hlower henv
    dsimp only at ht
    subst ht
    exact ⟨⟨hlower', upper.stable hlater hupper⟩, hlater, upper.refl _⟩
  · dsimp only at hs
    subst hs
    obtain ⟨hupper', hlater⟩ := habove _ t t' own.2 hupper henv
    exact ⟨⟨hlower, hupper'⟩, logic.refl _, hlater⟩

end Logic

end Rapi.Foundation
