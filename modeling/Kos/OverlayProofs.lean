import Mathlib.Tactic.Common

/-! # Overlays of a sequence

    A store of cells is a function on the natural numbers.  `put f a n g` is
    `f` with the `n` cells from `a` on replaced by the first `n` of `g`.

    * two overlays that meet are one (`put_put_append`);
    * a block that is read, changed inside and written back is the store
      changed at that place (`put_block`);
    * overlays at places without a common cell commute with reading
      (`put_of_out`, `put_at`). -/

namespace Overlay

variable {α : Type}

/-- `f` with the `n` cells from `a` on taken from `g`. -/
def put (f : Nat → α) (a n : Nat) (g : Nat → α) : Nat → α := fun x =>
  if a ≤ x ∧ x < a + n then g (x - a) else f x

/-- The store from cell `a` on. -/
def drop (f : Nat → α) (a : Nat) : Nat → α := fun k => f (a + k)

@[simp] theorem drop_zero (f : Nat → α) : drop f 0 = f := by
  funext k
  rw [drop, Nat.zero_add]

@[simp] theorem drop_drop (f : Nat → α) (a b : Nat) :
    drop (drop f a) b = drop f (a + b) := by
  funext k
  rw [drop, drop, drop, Nat.add_assoc]

theorem put_of_in {f g : Nat → α} {a n x : Nat} (h : a ≤ x ∧ x < a + n) :
    put f a n g x = g (x - a) := if_pos h

theorem put_of_out {f g : Nat → α} {a n x : Nat} (h : x < a ∨ a + n ≤ x) :
    put f a n g x = f x := if_neg (by omega)

/-- The cell at distance `k`. -/
theorem put_at {f g : Nat → α} {a n k : Nat} (h : k < n) :
    put f a n g (a + k) = g k := by
  rw [put_of_in (by omega), Nat.add_sub_cancel_left]

@[simp] theorem put_zero (f g : Nat → α) (a : Nat) : put f a 0 g = f := by
  funext x
  exact put_of_out (by omega)

theorem put_congr {f g g' : Nat → α} {a n : Nat} (h : ∀ k < n, g k = g' k) :
    put f a n g = put f a n g' := by
  funext x
  by_cases hx : a ≤ x ∧ x < a + n
  · rw [put_of_in hx, put_of_in hx, h _ (by omega)]
  · rw [put_of_out (by omega), put_of_out (by omega)]

/-- An overlay and the one that goes on where it ends. -/
theorem put_put_append {f g : Nat → α} {a n m : Nat} :
    put (put f a n g) (a + n) m (drop g n) = put f a (n + m) g := by
  funext x
  by_cases h₁ : a ≤ x ∧ x < a + n
  · rw [put_of_out (by omega), put_of_in h₁, put_of_in (by omega)]
  · by_cases h₂ : a + n ≤ x ∧ x < a + n + m
    · rw [put_of_in h₂, put_of_in (by omega), drop]
      congr 1
      omega
    · rw [put_of_out (by omega), put_of_out (by omega), put_of_out (by omega)]

/-- The later of two overlays covers the earlier. -/
theorem put_put_cover {f g h : Nat → α} {a b n m : Nat}
    (hlo : b ≤ a) (hhi : a + n ≤ b + m) :
    put (put f a n g) b m h = put f b m h := by
  funext x
  by_cases hx : b ≤ x ∧ x < b + m
  · rw [put_of_in hx, put_of_in hx]
  · rw [put_of_out (by omega), put_of_out (by omega), put_of_out (by omega)]

/-- **A BLOCK** of `m` cells is read at `a`, changed from cell `o` on, and
    written back. -/
theorem put_block {f g b : Nat → α} {a o n m : Nat} (h : o + n ≤ m) :
    put f a m (put (put b 0 m (drop f a)) o n g) = put f (a + o) n g := by
  funext x
  by_cases hm : a ≤ x ∧ x < a + m
  · rw [put_of_in hm]
    by_cases hn : a + o ≤ x ∧ x < a + o + n
    · rw [put_of_in hn, put_of_in (by omega)]
      congr 1
      omega
    · rw [put_of_out (f := f) (by omega), put_of_out (by omega),
        put_of_in (by omega), drop, Nat.sub_zero, Nat.add_sub_cancel' hm.1]
  · rw [put_of_out (by omega), put_of_out (by omega)]

/-- The same without a change. -/
theorem put_block_same {f b : Nat → α} {a m : Nat} :
    put f a m (put b 0 m (drop f a)) = f := by
  have h := put_block (f := f) (g := f) (b := b) (a := a) (o := 0) (n := 0)
    (m := m) (by omega)
  simpa only [put_zero] using h

end Overlay
