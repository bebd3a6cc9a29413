/-
A deterministic system over a transition system: each step of the one is answered by a run of the other, under labels
that the step determines. Over a run the labels are those of its steps, one after the other.
-/
import Wnc.Lib.Run

namespace Wnc.Lib

section Simulation

variable {S A T B : Type} {step : S → A → S} {labels : S → A → List B} {step' : T → B → T → Prop}
  {guard : T → B → Prop} {R : S → T → Prop}

/-- The labels of a run. -/
def trace (step : S → A → S) (labels : S → A → List B) : S → List A → List B
  | _, [] => []
  | s, a :: as => labels s a ++ trace step labels (step s a) as

/-- What relates the two systems, and the run that answers a step. -/
def Simulated (step : S → A → S) (labels : S → A → List B) (step' : T → B → T → Prop) (guard : T → B → Prop)
    (R : S → T → Prop) : Prop :=
  ∀ s a t, R s t → ∃ t', Run step' guard t (labels s a) t' ∧ R (step s a) t'

/-- The simulation rule: a run of the deterministic system is answered by a run under the labels of its trace. -/
theorem Simulated.run (h : Simulated step labels step' guard R) {s : S} {t : T} (hst : R s t) (as : List A) :
    ∃ t', Run step' guard t (trace step labels s as) t' ∧ R (as.foldl step s) t' := by
  induction as generalizing s t with
  | nil => exact ⟨t, .nil t, hst⟩
  | cons a as ih =>
    obtain ⟨u, hu, hsu⟩ := h s a t hst
    obtain ⟨t', ht', hst'⟩ := ih hsu
    exact ⟨t', hu.append ht', hst'⟩

end Simulation

end Wnc.Lib
