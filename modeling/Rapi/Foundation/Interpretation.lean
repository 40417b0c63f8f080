import Rapi.Foundation.Program

/-!
# Interpreting programs

A program leaves open what its actions do.  `interpret` runs it with a handler
that answers every action and has a state of its own.
-/

namespace Rapi.Foundation.Prog

variable {σ Op : Type} {Res : Op → Type} {α β : Type}

def interpret (handle : (op : Op) → σ → Res op × σ) : Prog Op Res α → σ → α × σ
  | .ret value, s => (value, s)
  | .act op next, s => (next (handle op s).1).interpret handle (handle op s).2

section Interpret

variable (handle : (op : Op) → σ → Res op × σ)

@[simp] theorem interpret_pure (value : α) (s : σ) :
    (pure value : Prog Op Res α).interpret handle s = (value, s) := rfl

@[simp] theorem interpret_perform (op : Op) (f : Res op → Prog Op Res β) (s : σ) :
    (perform op >>= f).interpret handle s =
      (f (handle op s).1).interpret handle (handle op s).2 := rfl

@[simp] theorem interpret_bind (p : Prog Op Res α) (f : α → Prog Op Res β) (s : σ) :
    (p >>= f).interpret handle s =
      (f (p.interpret handle s).1).interpret handle (p.interpret handle s).2 := by
  induction p generalizing s with
  | ret value => rfl
  | act op next ih => exact ih _ _

end Interpret

end Rapi.Foundation.Prog
