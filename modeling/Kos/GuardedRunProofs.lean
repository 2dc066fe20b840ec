import Mathlib.Logic.Basic

/-! # Runs whose steps meet a condition

    A transition system has states `σ`, labels `ε` and a step relation.
    `Reach init step guard` is the set of states that runs from `init` reach
    when every step taken meets `guard`, a condition on the label and the
    state before the step.

    * an invariant of the guarded steps holds in every reached state
      (`reach_invariant`), also when its preservation needs an invariant
      already proved (`reach_invariant_of`). -/

namespace GuardedRun

variable {σ ε : Type}

/-- The states that runs from `init` reach by steps that meet `guard`. -/
inductive Reach (init : σ → Prop) (step : σ → ε → σ → Prop)
    (guard : σ → ε → Prop) : σ → Prop where
  | start {s : σ} (h : init s) : Reach init step guard s
  | next {s t : σ} {e : ε} (hr : Reach init step guard s)
      (hg : guard s e) (hs : step s e t) : Reach init step guard t

/-- No condition on the steps. -/
def free : σ → ε → Prop := fun _ _ => True

variable {init : σ → Prop} {step : σ → ε → σ → Prop} {guard : σ → ε → Prop}

/-- What holds initially and is kept by guarded steps holds throughout. -/
theorem reach_invariant (inv : σ → Prop) (h0 : ∀ s, init s → inv s)
    (hstep : ∀ s e t, inv s → guard s e → step s e t → inv t) {s : σ}
    (h : Reach init step guard s) : inv s := by
  induction h with
  | start h => exact h0 _ h
  | next _ hg hs ih => exact hstep _ _ _ ih hg hs

/-- The same, with the help of an invariant that is known already. -/
theorem reach_invariant_of (known inv : σ → Prop)
    (hknown : ∀ s, Reach init step guard s → known s)
    (h0 : ∀ s, init s → inv s)
    (hstep : ∀ s e t, known s → known t → inv s → guard s e → step s e t →
      inv t) {s : σ} (h : Reach init step guard s) : inv s := by
  induction h with
  | start h => exact h0 _ h
  | next hr hg hs ih =>
      exact hstep _ _ _ (hknown _ hr) (hknown _ (.next hr hg hs)) ih hg hs

end GuardedRun
