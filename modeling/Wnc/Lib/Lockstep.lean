/-
Fallible computations in lockstep: where one fails the other fails with a like error, and where one succeeds the
other succeeds with a related value. Two folds over one list are in lockstep when their steps are.
-/
import Mathlib.Logic.Basic

namespace Wnc.Lib

variable {ε α β : Type}

/-- Both computations fail with like errors, or both succeed with related values. -/
inductive Lockstep (E : ε → ε → Prop) (R : α → β → Prop) : Except ε α → Except ε β → Prop
  | error {e e' : ε} (h : E e e') : Lockstep E R (.error e) (.error e')
  | ok {a : α} {b : β} (h : R a b) : Lockstep E R (.ok a) (.ok b)

namespace Lockstep

variable {γ δ ι : Type} {E : ε → ε → Prop} {R : α → β → Prop} {S : γ → δ → Prop}

theorem bind {x : Except ε α} {y : Except ε β} {f : α → Except ε γ} {g : β → Except ε δ} (h : Lockstep E R x y)
    (hfg : ∀ a b, R a b → Lockstep E S (f a) (g b)) : Lockstep E S (x >>= f) (y >>= g) := by
  cases h with
  | error he => exact .error he
  | ok hab => exact hfg _ _ hab

/-- Folds whose steps are in lockstep are in lockstep. -/
theorem foldlM {f : α → ι → Except ε α} {g : β → ι → Except ε β}
    (hstep : ∀ a b i, R a b → Lockstep E R (f a i) (g b i)) {a : α} {b : β} (hab : R a b) (l : List ι) :
    Lockstep E R (l.foldlM f a) (l.foldlM g b) := by
  induction l generalizing a b with
  | nil => exact .ok hab
  | cons i l ih =>
    rw [List.foldlM_cons, List.foldlM_cons]
    exact (hstep a b i hab).bind fun _ _ h => ih h

end Lockstep

end Wnc.Lib
