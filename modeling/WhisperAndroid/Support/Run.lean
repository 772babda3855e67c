import Mathlib.Data.List.Basic

/-!
# Labelled runs

A run of a transition relation with the list of labels it takes, over arbitrary
states and labels. An invariant of the steps is an invariant of the runs, and a run
with a concatenated list of labels splits into two.
-/

namespace Transition

variable {σ ε : Type*}

/-- Starting in one state, the steps with the given labels lead to another. -/
inductive Run (step : σ → ε → σ → Prop) : σ → List ε → σ → Prop
  | nil (s : σ) : Run step s [] s
  | cons {s t u : σ} {e : ε} {es : List ε} :
      step s e t → Run step t es u → Run step s (e :: es) u

namespace Run

variable {step : σ → ε → σ → Prop} {s t u : σ} {e : ε} {es es' : List ε}

@[simp] theorem nil_iff : Run step s [] t ↔ s = t := by
  constructor
  · intro h
    cases h
    rfl
  · intro h
    subst h
    exact .nil s

theorem cons_iff : Run step s (e :: es) u ↔ ∃ t, step s e t ∧ Run step t es u := by
  constructor
  · intro h
    cases h with
    | cons hstep hrest => exact ⟨_, hstep, hrest⟩
  · intro ⟨t, hstep, hrest⟩
    exact .cons hstep hrest

@[simp] theorem singleton_iff : Run step s [e] t ↔ step s e t := by
  simp [cons_iff]

/-- Runs compose along concatenation, and split along it. -/
theorem append_iff : Run step s (es ++ es') u ↔ ∃ t, Run step s es t ∧ Run step t es' u := by
  induction es generalizing s with
  | nil => simp
  | cons e es ih =>
    rw [List.cons_append, cons_iff]
    simp only [ih, cons_iff]
    constructor
    · intro ⟨v, hstep, t, hfirst, hsecond⟩
      exact ⟨t, ⟨v, hstep, hfirst⟩, hsecond⟩
    · intro ⟨t, ⟨v, hstep, hfirst⟩, hsecond⟩
      exact ⟨v, hstep, t, hfirst, hsecond⟩

theorem concat_iff : Run step s (es ++ [e]) u ↔ ∃ t, Run step s es t ∧ step t e u := by
  simp [append_iff]

/-- What every step preserves, every run preserves. -/
theorem invariant {P : σ → Prop} (hstep : ∀ s e t, P s → step s e t → P t)
    (hrun : Run step s es t) (hstart : P s) : P t := by
  induction hrun with
  | nil s => exact hstart
  | cons hfirst _ ih => exact ih (hstep _ _ _ hstart hfirst)

/-- A map that carries steps to steps carries runs to runs. -/
theorem map {τ : Type*} {step' : τ → ε → τ → Prop} (f : σ → τ)
    (hstep : ∀ s e t, step s e t → step' (f s) e (f t)) (hrun : Run step s es t) :
    Run step' (f s) es (f t) := by
  induction hrun with
  | nil s => exact .nil (f s)
  | cons hfirst _ ih => exact .cons (hstep _ _ _ hfirst) ih

end Run

end Transition
