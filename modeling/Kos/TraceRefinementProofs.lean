import Mathlib.Logic.Basic

/-! # Refinement of traces

    A system has first states and labelled steps; its traces are the labels of
    its runs.

    * `Simulates S T R` is that `T` can follow each step of `S`, with the same
      label, in states that `R` relates;
    * then every run of `S` is matched by one of `T` with the same trace
      (`run_simulated`), so what holds of all traces of `T` holds of those of
      `S` (`trace_property`). -/

namespace TraceRefinement

variable {σ τ ε : Type}

/-- States `σ` and steps with labels `ε`. -/
structure System (σ ε : Type) where
  init : σ → Prop
  step : σ → ε → σ → Prop

/-- The runs from a first state, with the labels in order. -/
inductive Run (S : System σ ε) : List ε → σ → Prop where
  | start {s : σ} (h : S.init s) : Run S [] s
  | next {l : List ε} {s t : σ} {e : ε} (hr : Run S l s) (hs : S.step s e t) :
      Run S (l ++ [e]) t

/-- `T` can do what `S` does. -/
structure Simulates (S : System σ ε) (T : System τ ε) (R : σ → τ → Prop) :
    Prop where
  init : ∀ {s}, S.init s → ∃ a, T.init a ∧ R s a
  step : ∀ {s t e a}, R s a → S.step s e t → ∃ b, T.step a e b ∧ R t b

section Simulation

variable {S : System σ ε} {T : System τ ε} {R : σ → τ → Prop} {l : List ε}

/-- **A RUN** of `S` is one of `T`. -/
theorem run_simulated (h : Simulates S T R) {s : σ} (hr : Run S l s) :
    ∃ a, Run T l a ∧ R s a := by
  induction hr with
  | start h0 =>
      obtain ⟨a, ha, hrel⟩ := h.init h0
      exact ⟨a, .start ha, hrel⟩
  | next _ hs ih =>
      obtain ⟨a, ha, hrel⟩ := ih
      obtain ⟨b, hb, hrel'⟩ := h.step hrel hs
      exact ⟨b, .next ha hb, hrel'⟩

/-- What holds of the traces of `T` holds of those of `S`. -/
theorem trace_property (h : Simulates S T R) {P : List ε → Prop}
    (hP : ∀ l a, Run T l a → P l) {s : σ} (hr : Run S l s) : P l := by
  obtain ⟨a, ha, -⟩ := run_simulated h hr
  exact hP l a ha

end Simulation

end TraceRefinement
