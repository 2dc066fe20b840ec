import Mathlib.Data.List.Basic
import Mathlib.Logic.Basic

/-! # Maximal runs

    The runs of a property along the natural numbers.

    * `Run P a b` says that the numbers from `a` to in front of `b` have the
      property, and neither `b` nor the number in front of `a`;
    * one pass that keeps the start of the run it is in finds them all
      (`mem_ended`), in order (`ended_sorted`). -/

namespace MaximalRuns

variable {P : Nat → Prop} {a b p : Nat}

/-- A run of indices with `P` that cannot be made longer. -/
structure Run (P : Nat → Prop) (a b : Nat) : Prop where
  lt    : a < b
  all   : ∀ j, a ≤ j → j < b → P j
  left  : a = 0 ∨ ¬ P (a - 1)
  right : ¬ P b

/-- The number in front of `p` has the property. -/
def Inside (P : Nat → Prop) : Nat → Prop
  | 0 => False
  | p + 1 => P p

instance [DecidablePred P] (p : Nat) : Decidable (Inside P p) :=
  match p with
  | 0 => inferInstanceAs (Decidable False)
  | p + 1 => inferInstanceAs (Decidable (P p))

variable [DecidablePred P]

variable (P) in
/-- The start of the run that the number in front of `p` is in. -/
def current : Nat → Nat
  | 0 => 0
  | p + 1 => if P p ∧ ¬ Inside P p then p else current p

variable (P) in
/-- The starts of the runs that end in front of `p`. -/
def ended : Nat → List Nat
  | 0 => []
  | p + 1 => if ¬ P p ∧ Inside P p then ended p ++ [current P p] else ended p

theorem current_succ : current P (p + 1) =
    if P p ∧ ¬ Inside P p then p else current P p := rfl

theorem ended_succ : ended P (p + 1) =
    if ¬ P p ∧ Inside P p then ended P p ++ [current P p] else ended P p := rfl

/-- The run that is going on. -/
theorem current_run (h : Inside P p) :
    current P p < p ∧ (∀ j, current P p ≤ j → j < p → P j) ∧
      (current P p = 0 ∨ ¬ P (current P p - 1)) := by
  induction p with
  | zero => exact absurd h id
  | succ p ih =>
      have hp : P p := h
      rw [current_succ]
      by_cases hin : Inside P p
      · obtain ⟨hlt, hall, hleft⟩ := ih hin
        rw [if_neg fun h' => h'.2 hin]
        refine ⟨by omega, fun j h₁ h₂ => ?_, hleft⟩
        rcases Nat.eq_or_lt_of_le (Nat.le_of_lt_succ h₂) with rfl | hlt'
        · exact hp
        · exact hall j h₁ hlt'
      · rw [if_pos ⟨hp, hin⟩]
        refine ⟨Nat.lt_succ_self p, fun j h₁ h₂ => ?_, ?_⟩
        · rwa [show j = p by omega]
        · cases p with
          | zero => exact Or.inl rfl
          | succ p => exact Or.inr hin

/-- A run that ends at `p` is the one that is going on there. -/
theorem run_iff_current : Run P a p ↔ Inside P p ∧ ¬ P p ∧ a = current P p := by
  constructor
  · intro h
    have hin : Inside P p := by
      cases p with
      | zero => exact absurd h.lt (Nat.not_lt_zero a)
      | succ p => exact h.all p (Nat.le_of_lt_succ h.lt) (Nat.lt_succ_self p)
    obtain ⟨hlt, hall, hleft⟩ := current_run hin
    refine ⟨hin, h.right, ?_⟩
    rcases Nat.lt_trichotomy a (current P p) with hlt' | heq | hgt
    · refine absurd (h.all (current P p - 1) (by omega) (by omega)) ?_
      exact hleft.resolve_left (by omega)
    · exact heq
    · refine absurd (hall (a - 1) (by omega) ?_) ?_
      · have := h.lt
        omega
      · exact h.left.resolve_left (by omega)
  · rintro ⟨hin, hnot, rfl⟩
    obtain ⟨hlt, hall, hleft⟩ := current_run hin
    exact ⟨hlt, hall, hleft, hnot⟩

/-- **THE PASS FINDS** every run. -/
theorem mem_ended : a ∈ ended P p ↔ ∃ b < p, Run P a b := by
  induction p with
  | zero =>
      refine iff_of_false (List.not_mem_nil) ?_
      rintro ⟨b, hb, -⟩
      exact absurd hb (Nat.not_lt_zero b)
  | succ p ih =>
      have hstep : (∃ b < p + 1, Run P a b) ↔ (∃ b < p, Run P a b) ∨ Run P a p := by
        constructor
        · rintro ⟨b, hb, hrun⟩
          rcases Nat.eq_or_lt_of_le (Nat.le_of_lt_succ hb) with rfl | hlt
          · exact Or.inr hrun
          · exact Or.inl ⟨b, hlt, hrun⟩
        · rintro (⟨b, hb, hrun⟩ | hrun)
          · exact ⟨b, Nat.lt_succ_of_lt hb, hrun⟩
          · exact ⟨p, Nat.lt_succ_self p, hrun⟩
      rw [hstep, ended_succ, run_iff_current, ← ih]
      split
      · rename_i h
        rw [List.mem_append, List.mem_singleton]
        exact or_congr_right ⟨fun h' => ⟨h.2, h.1, h'⟩, fun h' => h'.2.2⟩
      · rename_i h
        exact ⟨Or.inl, fun h' => h'.resolve_right fun h' => h ⟨h'.2.1, h'.1⟩⟩

/-- **IN ORDER**. -/
theorem ended_sorted : (ended P p).Pairwise (· < ·) := by
  induction p with
  | zero => exact List.Pairwise.nil
  | succ p ih =>
      rw [ended_succ]
      split
      · rename_i h
        refine List.pairwise_append.mpr ⟨ih, List.pairwise_singleton _ _, ?_⟩
        intro a ha c hc
        obtain rfl := List.mem_singleton.mp hc
        obtain ⟨b, hb, hrun⟩ := mem_ended.mp ha
        obtain ⟨-, hall, -⟩ := current_run h.2
        have hlt := hrun.lt
        by_contra hge
        exact hrun.right (hall b (by omega) hb)
      · exact ih

theorem ended_length_le : (ended P p).length ≤ p := by
  induction p with
  | zero => exact Nat.le_refl 0
  | succ p ih =>
      rw [ended_succ]
      by_cases h : ¬ P p ∧ Inside P p
      · rw [if_pos h, List.length_append, List.length_singleton]
        omega
      · rw [if_neg h]
        omega

theorem not_of_ended_nil (hnil : ended P p = []) (hin : ¬ Inside P p) :
    ∀ j < p, ¬ P j := by
  induction p with
  | zero => exact fun j hj => absurd hj (Nat.not_lt_zero j)
  | succ p ih =>
      intro j hj
      have hp : ¬ P p := hin
      rw [ended_succ] at hnil
      by_cases h : ¬ P p ∧ Inside P p
      · rw [if_pos h] at hnil
        exact absurd hnil (List.append_ne_nil_of_right_ne_nil _
          (List.cons_ne_nil _ _))
      · rw [if_neg h] at hnil
        rcases Nat.eq_or_lt_of_le (Nat.le_of_lt_succ hj) with rfl | hlt
        · exact hp
        · exact ih hnil (fun hin' => h ⟨hp, hin'⟩) j hlt

/-- Without the property from `p` on every run ends, so there is a run where
    there is a number with the property. -/
theorem ended_ne_nil (hp : ∀ j, p ≤ j → ¬ P j) :
    ended P (p + 1) ≠ [] ↔ ∃ j, P j := by
  constructor
  · intro h
    obtain ⟨a, ha⟩ := List.exists_mem_of_ne_nil _ h
    obtain ⟨b, -, hrun⟩ := mem_ended.mp ha
    exact ⟨a, hrun.all a (Nat.le_refl a) hrun.lt⟩
  · rintro ⟨j, hj⟩ hnil
    rcases Nat.lt_or_ge j (p + 1) with hlt | hge
    · exact not_of_ended_nil hnil (hp p (Nat.le_refl p)) j hlt hj
    · exact hp j (by omega) hj

end MaximalRuns
