import Mathlib.Logic.Function.Iterate

/-! # While loops

    A loop that runs `body` as long as `guard` holds.

    * `Ends x y`: started at `x`, it ends at `y`; `Visits x y`: it comes to `y`;
    * the guard fails at the end, there is one end (`ends_unique`), and what
      every round keeps holds there (`ends_invariant`);
    * a loop whose body changes nothing goes on for ever (`not_stops_of_fixed`);
    * rounds that are counted end it (`ends_iterate`), and
      a loop that counts ends at the first number without the guard
      (`ends_counter_iff`);
    * a map that turns one body into the other turns one loop into the other
      (`stops_map`). -/

namespace WhileLoop

variable {α β : Type} {guard : α → Prop} {body : α → α} {x y : α}

/-- The loop, started at `x`, ends at `y`. -/
inductive Ends (guard : α → Prop) (body : α → α) : α → α → Prop
  | stop {x : α} (h : ¬ guard x) : Ends guard body x x
  | round {x y : α} (h : guard x) (hrest : Ends guard body (body x) y) :
      Ends guard body x y

/-- The loop, started at `x`, comes to `y`. -/
inductive Visits (guard : α → Prop) (body : α → α) : α → α → Prop
  | start {x : α} : Visits guard body x x
  | round {x y : α} (h : guard x) (hrest : Visits guard body (body x) y) :
      Visits guard body x y

/-- The loop ends. -/
def Stops (guard : α → Prop) (body : α → α) (x : α) : Prop :=
  ∃ y, Ends guard body x y

theorem stops_now (h : ¬ guard x) : Stops guard body x := ⟨x, .stop h⟩

theorem stops_round (h : guard x) :
    Stops guard body x ↔ Stops guard body (body x) := by
  constructor
  · rintro ⟨y, hends⟩
    cases hends with
    | stop hnot => exact absurd h hnot
    | round _ hrest => exact ⟨y, hrest⟩
  · rintro ⟨y, hrest⟩
    exact ⟨y, .round h hrest⟩

/-- **INVARIANT**: what every round keeps holds at the end. -/
theorem ends_invariant (inv : α → Prop)
    (hbody : ∀ x, inv x → guard x → inv (body x)) (h : Ends guard body x y)
    (hx : inv x) : inv y ∧ ¬ guard y := by
  induction h with
  | stop hnot => exact ⟨hx, hnot⟩
  | round hg _ ih => exact ih (hbody _ hx hg)

/-- Where the guard fails nothing else is visited. -/
theorem visits_of_not (h : Visits guard body x y) (hnot : ¬ guard x) : y = x := by
  cases h with
  | start => rfl
  | round hg _ => exact absurd hg hnot

/-- The end depends on the start. -/
theorem ends_unique {z : α} (h : Ends guard body x y)
    (h' : Ends guard body x z) : y = z := by
  induction h with
  | stop hnot =>
      cases h' with
      | stop => rfl
      | round hg _ => exact absurd hg hnot
  | round hg _ ih =>
      cases h' with
      | stop hnot => exact absurd hg hnot
      | round _ hrest => exact ih hrest

/-- A round that changes nothing. -/
theorem not_stops_of_fixed (h : guard x) (hfix : body x = x) :
    ¬ Stops guard body x := by
  rintro ⟨y, hends⟩
  obtain ⟨rfl, hnot⟩ := ends_invariant (fun z => z = x)
    (fun z hz _ => by rw [hz, hfix]) hends rfl
  exact hnot h

/-- A loop that counts. -/
theorem ends_counter_iff {guard : Nat → Prop} {a i : Nat} :
    Ends guard (fun n => n + 1) a i ↔
      a ≤ i ∧ ¬ guard i ∧ ∀ j, a ≤ j → j < i → guard j := by
  constructor
  · intro h
    induction h with
    | stop hnot =>
        exact ⟨Nat.le_refl _, hnot, fun j h₁ h₂ => absurd h₂ (Nat.not_lt.mpr h₁)⟩
    | @round x _ hg _ ih =>
        obtain ⟨hle, hnot, hall⟩ := ih
        refine ⟨Nat.le_of_succ_le hle, hnot, fun j h₁ h₂ => ?_⟩
        rcases Nat.eq_or_lt_of_le h₁ with rfl | hlt
        · exact hg
        · exact hall j hlt h₂
  · rintro ⟨hle, hnot, hall⟩
    obtain ⟨n, rfl⟩ := Nat.exists_eq_add_of_le hle
    induction n generalizing a with
    | zero => exact .stop hnot
    | succ n ih =>
        have hi : a + (n + 1) = a + 1 + n := by omega
        rw [hi] at hnot hall ⊢
        exact .round (hall a (Nat.le_refl a) (by omega)) (ih (by omega) hnot
          fun j h₁ h₂ => hall j (by omega) h₂)

/-- The rounds one by one. -/
theorem ends_iterate {n : Nat} (hgo : ∀ k < n, guard (body^[k] x))
    (hend : ¬ guard (body^[n] x)) : Ends guard body x (body^[n] x) := by
  induction n generalizing x with
  | zero => exact .stop hend
  | succ n ih =>
      rw [Function.iterate_succ_apply] at hend ⊢
      refine .round (hgo 0 (Nat.succ_pos n)) (ih (fun k hk => ?_) hend)
      have h := hgo (k + 1) (Nat.succ_lt_succ hk)
      rwa [Function.iterate_succ_apply] at h

/-- **SIMULATION**: where the map `f` takes the one body and guard to the
    others, the loops stop for the same values. -/
theorem stops_map {guard' : β → Prop} {body' : β → β} (f : α → β)
    (inv : α → Prop) (hinv : ∀ x, inv x → inv (body x))
    (hguard : ∀ x, inv x → (guard x ↔ guard' (f x)))
    (hbody : ∀ x, inv x → f (body x) = body' (f x)) (hx : inv x) :
    Stops guard body x ↔ Stops guard' body' (f x) := by
  constructor
  · rintro ⟨y, hends⟩
    induction hends with
    | stop hnot => exact stops_now fun hg => hnot ((hguard _ hx).mpr hg)
    | round hg _ ih =>
        rw [stops_round ((hguard _ hx).mp hg), ← hbody _ hx]
        exact ih (hinv _ hx)
  · rintro ⟨z, hends⟩
    generalize hw : f x = w at hends
    induction hends generalizing x with
    | stop hnot =>
        rw [← hw] at hnot
        exact stops_now fun hg => hnot ((hguard _ hx).mp hg)
    | round hg _ ih =>
        rw [← hw] at hg
        rw [stops_round ((hguard _ hx).mpr hg)]
        exact ih (hinv _ hx) (by rw [hbody _ hx, hw])

end WhileLoop
