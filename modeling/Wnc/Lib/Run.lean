/-
Runs of a labelled transition system: finite sequences of steps, each of which may be required to
meet a guard on the state it starts from and its label. The induction over runs is packaged once:
a property of the start that every guarded step preserves holds at the end of every guarded run.
-/

namespace Wnc.Lib

/-- `Run step guard s as t`: the labels `as` lead from `s` to `t`, each step meeting `guard`. -/
inductive Run {S A : Type} (step : S → A → S → Prop) (guard : S → A → Prop) : S → List A → S → Prop
  | nil (s : S) : Run step guard s [] s
  | cons {s t u : S} {a : A} {as : List A} (hg : guard s a) (hs : step s a t)
      (rest : Run step guard t as u) : Run step guard s (a :: as) u

namespace Run

variable {S A : Type} {step : S → A → S → Prop} {guard guard' : S → A → Prop} {s t u : S}

/-- The invariant rule: what the start satisfies and every guarded step preserves, the end satisfies. -/
theorem invariant (Inv : S → Prop)
    (hstep : ∀ s a t, Inv s → guard s a → step s a t → Inv t) {as : List A}
    (h : Run step guard s as t) (hs : Inv s) : Inv t := by
  induction h with
  | nil _ => exact hs
  | cons hg hst _ ih => exact ih (hstep _ _ _ hs hg hst)

theorem append {as bs : List A} (h : Run step guard s as t) (h' : Run step guard t bs u) :
    Run step guard s (as ++ bs) u := by
  induction h with
  | nil _ => exact h'
  | cons hg hst _ ih => exact .cons hg hst (ih h')

/-- A run under a guard is a run under any weaker guard. -/
theorem mono (hgg : ∀ s a, guard s a → guard' s a) {as : List A} (h : Run step guard s as t) :
    Run step guard' s as t := by
  induction h with
  | nil _ => exact .nil _
  | cons hg hst _ ih => exact .cons (hgg _ _ hg) hst ih

/-- A property that a step leaves exactly when it found it and the step is good holds at the end of a run exactly when
every step of the run is good. -/
theorem guarded_iff {Inv P : S → Prop} {good : S → A → Prop}
    (hkeeps : ∀ s a t, Inv s → guard s a → step s a t → Inv t)
    (hstep : ∀ s a t, Inv s → guard s a → step s a t → (P t ↔ P s ∧ good s a)) {as : List A}
    (h : Run step guard s as t) (hs : Inv s) (hp : P s) :
    P t ↔ Run step (fun s a => guard s a ∧ good s a) s as t := by
  constructor
  · intro ht
    suffices hback : P s ∧ Run step (fun s a => guard s a ∧ good s a) s as t from hback.2
    clear hp
    induction h with
    | nil s => exact ⟨ht, .nil s⟩
    | cons hg hst _ ih =>
      obtain ⟨hmiddle, hrest⟩ := ih (hkeeps _ _ _ hs hg hst) ht
      obtain ⟨hfirst, hgood⟩ := (hstep _ _ _ hs hg hst).1 hmiddle
      exact ⟨hfirst, .cons ⟨hg, hgood⟩ hst hrest⟩
  · intro hgood
    exact (hgood.invariant (fun s => Inv s ∧ P s)
      (fun s a t hi hg hst => ⟨hkeeps s a t hi.1 hg.1 hst, (hstep s a t hi.1 hg.1 hst).2 ⟨hi.2, hg.2⟩⟩) ⟨hs, hp⟩).2

end Run

/-! ## Deterministic systems -/

section Exec

variable {S A : Type} (step : S → A → Option S) (guard : S → A → Prop) [∀ s a, Decidable (guard s a)]

/-- The state a list of labels leads to; `none` where a step is refused or does not meet the guard. -/
def exec : S → List A → Option S
  | s, [] => some s
  | s, a :: as =>
    if guard s a then
      match step s a with
      | none => none
      | some t => exec t as
    else none

theorem run_of_exec {s t : S} {as : List A} (h : exec step guard s as = some t) :
    Run (fun s a t => step s a = some t) guard s as t := by
  induction as generalizing s with
  | nil => cases h; exact .nil _
  | cons a as ih =>
    rw [exec] at h
    split at h
    · rename_i hg
      cases hs : step s a with
      | none => rw [hs] at h; cases h
      | some u => rw [hs] at h; exact .cons hg hs (ih h)
    · cases h

end Exec

end Wnc.Lib
