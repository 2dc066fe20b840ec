import Mathlib.Order.Defs.Unbundled

/-! # What programs leave as it is

    A program over states `σ` that may stop with an error is described by a
    relation of the states before and after its runs that end (`Keeps`).  Where
    the relation is a preorder the description of a program is put together
    from those of its steps. -/

namespace FrameRule

variable {ε σ α β : Type} {R : σ → σ → Prop}

/-- A run of the program that ends leads from a state to a related one. -/
def Keeps (R : σ → σ → Prop) (x : EStateM ε σ α) : Prop :=
  ∀ s a t, x s = .ok a t → R s t

theorem keeps_pure [IsPreorder σ R] (a : α) :
    Keeps R (pure a : EStateM ε σ α) := by
  intro s _ t h
  cases h
  exact refl_of R s

theorem keeps_throw (e : ε) : Keeps R (throw e : EStateM ε σ α) := by
  intro s _ t h
  cases h

/-- A sequence is kept inside the relation by its parts. -/
theorem keeps_bind [IsPreorder σ R] {x : EStateM ε σ α}
    {f : α → EStateM ε σ β} (hx : Keeps R x) (hf : ∀ a, Keeps R (f a)) :
    Keeps R (x >>= f) := by
  intro s b u h
  change EStateM.bind x f s = _ at h
  unfold EStateM.bind at h
  cases hrun : x s with
  | ok a t =>
      rw [hrun] at h
      exact trans_of R (hx s a t hrun) (hf a t b u h)
  | error e t =>
      rw [hrun] at h
      cases h

/-- What is read from the state is any state. -/
theorem keeps_get {f : σ → EStateM ε σ β} (h : ∀ s, Keeps R (f s)) :
    Keeps R (get >>= f) :=
  fun s b t hrun => h s s b t hrun

theorem keeps_modify {f : σ → σ} (h : ∀ s, R s (f s)) :
    Keeps R (modify f : EStateM ε σ PUnit) := by
  intro s a t hrun
  cases hrun
  exact h s

theorem keeps_ite {c : Prop} [Decidable c] {x y : EStateM ε σ α}
    (hx : c → Keeps R x) (hy : ¬ c → Keeps R y) :
    Keeps R (if c then x else y) := by
  by_cases h : c
  · rw [if_pos h]
    exact hx h
  · rw [if_neg h]
    exact hy h

theorem keeps_forM [IsPreorder σ R] {l : List α} {f : α → EStateM ε σ PUnit}
    (h : ∀ a ∈ l, Keeps R (f a)) : Keeps R (l.forM f) := by
  induction l with
  | nil => exact keeps_pure _
  | cons a l ih =>
      exact keeps_bind (h a List.mem_cons_self) fun _ =>
        ih fun b hb => h b (List.mem_cons_of_mem a hb)

end FrameRule
