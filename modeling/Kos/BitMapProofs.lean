import Kos.OverlayProofs

/-! # Bit maps

    A sequence of bytes read as a sequence of bits: bit `x` is bit `x % 8` of
    byte `x / 8`.

    * `Clear f x n` says that the `n` bits from `x` on are clear, `Marks f f' x n`
      that `f'` is `f` with these bits set;
    * marks that meet are one (`marks_trans`), what was marked can be cleared
      (`bit_of_marks_clears`), and the bits of a block are bits of the store
      (`bit_drop`, `bit_put_of_in`). -/

namespace BitMap

open Overlay

/-- Eight bits. -/
abbrev Byte := BitVec 8

/-- Bit `x`. -/
def bit (f : Nat → Byte) (x : Nat) : Bool := (f (x / 8)).getLsbD (x % 8)

/-- The `n` bits from `x` on are clear. -/
def Clear (f : Nat → Byte) (x n : Nat) : Prop :=
  ∀ y, x ≤ y → y < x + n → bit f y = false

/-- `f'` is `f` with the `n` bits from `x` on set. -/
def Marks (f f' : Nat → Byte) (x n : Nat) : Prop :=
  ∀ y, bit f' y = (bit f y || decide (x ≤ y ∧ y < x + n))

/-- `f'` is `f` with the `n` bits from `x` on cleared. -/
def Clears (f f' : Nat → Byte) (x n : Nat) : Prop :=
  ∀ y, bit f' y = (bit f y && !decide (x ≤ y ∧ y < x + n))

/-- The bits from `x` on and before `e` are set. -/
def AllSet (f : Nat → Byte) (x e : Nat) : Prop :=
  ∀ y, x ≤ y → y < e → bit f y = true

/-- The first clear bit from `x` on is `b`, and it is before `e`. -/
def FirstClear (f : Nat → Byte) (x e b : Nat) : Prop :=
  x ≤ b ∧ b < e ∧ bit f b = false ∧ AllSet f x b

variable {f f' f'' g : Nat → Byte} {x y n m b e : Nat}

/-- A bit of a byte. -/
theorem bit_byte {j k : Nat} (hk : k < 8) :
    bit f (8 * j + k) = (f j).getLsbD k := by
  rw [bit, show (8 * j + k) / 8 = j by omega, show (8 * j + k) % 8 = k by omega]

/-- Stores with the same bits are equal. -/
theorem eq_of_bit_eq (h : ∀ y, bit f' y = bit f y) : f' = f := by
  funext j
  apply BitVec.eq_of_getLsbD_eq
  intro k hk
  have hjk := h (8 * j + k)
  rwa [bit_byte hk, bit_byte hk] at hjk

/-- There is one first clear bit. -/
theorem firstClear_unique {b' e' : Nat} (h : FirstClear f x e b)
    (h' : FirstClear f x e' b') : b = b' := by
  rcases Nat.lt_trichotomy b b' with hlt | heq | hlt
  · exact absurd ((h'.2.2.2 b h.1 hlt).symm.trans h.2.2.1) (by decide)
  · exact heq
  · exact absurd ((h.2.2.2 b' h'.1 hlt).symm.trans h'.2.2.1) (by decide)

/-- Bits are all set, or there is a first clear one. -/
theorem allSet_or_firstClear (f : Nat → Byte) (x e : Nat) :
    AllSet f x e ∨ ∃ b, FirstClear f x e b := by
  induction e with
  | zero => exact Or.inl fun y h₁ h₂ => by omega
  | succ e ih =>
      rcases ih with hset | ⟨b, h₁, h₂, hb, hset⟩
      · rcases Nat.lt_or_ge e x with hlt | hge
        · exact Or.inl fun y h₁ h₂ => by omega
        · cases hbit : bit f e with
          | true =>
              refine Or.inl fun y h₁ h₂ => ?_
              rcases Nat.lt_or_eq_of_le (show y ≤ e by omega) with hlt | rfl
              · exact hset y h₁ hlt
              · exact hbit
          | false => exact Or.inr ⟨e, hge, by omega, hbit, hset⟩
      · exact Or.inr ⟨b, h₁, by omega, hb, hset⟩

/-- A first clear bit is clear. -/
theorem not_allSet (h : FirstClear f x e b) : ¬ AllSet f x e := fun hs =>
  absurd ((hs b h.1 h.2.1).symm.trans h.2.2.1) (by decide)

/-- Set bits in front are passed over. -/
theorem firstClear_skip (hs : AllSet f x y) (hxy : x ≤ y) :
    FirstClear f x e b ↔ FirstClear f y e b := by
  constructor
  · rintro ⟨h₁, h₂, hb, hset⟩
    refine ⟨?_, h₂, hb, fun z h₃ h₄ => hset z (by omega) h₄⟩
    by_contra hlt
    exact absurd ((hs b h₁ (by omega)).symm.trans hb) (by decide)
  · rintro ⟨h₁, h₂, hb, hset⟩
    refine ⟨by omega, h₂, hb, fun z h₃ h₄ => ?_⟩
    rcases Nat.lt_or_ge z y with hlt | hge
    · exact hs z h₃ hlt
    · exact hset z hge h₄

/-- A range with its set part passed over. -/
theorem allSet_skip (hs : AllSet f x y) (hxy : x ≤ y) :
    AllSet f x e ↔ AllSet f y e := by
  constructor
  · intro h z h₁ h₂
    exact h z (by omega) h₂
  · intro h z h₁ h₂
    rcases Nat.lt_or_ge z y with hlt | hge
    · exact hs z h₁ hlt
    · exact h z hge h₂

/-- A part of a clear range is clear. -/
theorem clear_mono (h : Clear f x n) (hx : x ≤ y) (hn : y + m ≤ x + n) :
    Clear f y m := fun z h₁ h₂ => h z (by omega) (by omega)

/-- A clear range in two parts. -/
theorem clear_append : Clear f x (n + m) ↔ Clear f x n ∧ Clear f (x + n) m := by
  constructor
  · intro h
    exact ⟨clear_mono h (by omega) (by omega), clear_mono h (by omega) (by omega)⟩
  · rintro ⟨h₁, h₂⟩ z hlo hhi
    rcases Nat.lt_or_ge z (x + n) with hlt | hge
    · exact h₁ z hlo hlt
    · exact h₂ z hge (by omega)

/-- A clear range is read from its bits. -/
theorem clear_congr (h : ∀ y, x ≤ y → y < x + n → bit f' y = bit f y) :
    Clear f' x n ↔ Clear f x n := by
  constructor
  · intro hc y h₁ h₂
    rw [← h y h₁ h₂]
    exact hc y h₁ h₂
  · intro hc y h₁ h₂
    rw [h y h₁ h₂]
    exact hc y h₁ h₂

/-! ## Marks -/

/-- No bit set is the map unchanged. -/
theorem marks_zero (f : Nat → Byte) (x : Nat) : Marks f f x 0 := by
  intro y
  rw [decide_eq_false (by omega), Bool.or_false]

/-- Bits set one range after the other. -/
theorem marks_trans (h₁ : Marks f f' x n) (h₂ : Marks f' f'' (x + n) m) :
    Marks f f'' x (n + m) := by
  intro y
  rw [h₂ y, h₁ y, Bool.or_assoc, ← Bool.decide_or]
  congr 1
  exact decide_eq_decide.mpr (by omega)

/-- Bits behind the marks are as they were. -/
theorem bit_of_marks (h : Marks f f' x n) (hy : x + n ≤ y) :
    bit f' y = bit f y := by
  rw [h y, decide_eq_false (by omega), Bool.or_false]

/-- A byte without a mark is as it was. -/
theorem byte_of_marks {j : Nat} (h : Marks f f' x n)
    (hj : 8 * (j + 1) ≤ x ∨ x + n ≤ 8 * j) : f' j = f j := by
  refine BitVec.eq_of_getLsbD_eq fun k hk => ?_
  rw [← bit_byte hk, ← bit_byte hk, h, decide_eq_false (by omega),
    Bool.or_false]

/-- Setting bits leaves those behind them. -/
theorem clear_of_marks (h : Marks f f' x n) (hy : x + n ≤ y) :
    Clear f' y m ↔ Clear f y m :=
  clear_congr fun _ hz _ => bit_of_marks h (by omega)

/-- Where clear bits were marked can be seen. -/
theorem marks_start {x' : Nat} (h : Marks f f' x n) (h' : Marks f f' x' n)
    (hc : Clear f x n) (hc' : Clear f x' n) (hn : 0 < n) : x = x' := by
  have hle : ∀ {a a'}, Marks f f' a n → Marks f f' a' n → Clear f a n →
      a' ≤ a := by
    intro a a' ha ha' hca
    have hset := ha a
    rw [ha' a, hca a (Nat.le_refl _) (by omega), Bool.false_or, Bool.false_or,
      decide_eq_decide] at hset
    omega
  exact Nat.le_antisymm (hle h' h hc') (hle h h' hc)

/-- One bit is set in its byte. -/
theorem marks_one {j k : Nat} (hk : k < 8) :
    Marks f (Function.update f j (f j ||| (1 : Byte) <<< k)) (8 * j + k) 1 := by
  intro y
  by_cases hj : y / 8 = j
  · subst hj
    rw [bit, Function.update_self, BitVec.getLsbD_or, ← bit]
    congr 1
    have hy8 : y % 8 < 8 := Nat.mod_lt _ (by omega)
    rw [show (1 : Byte) <<< k = BitVec.twoPow 8 k from rfl,
      BitVec.getLsbD_twoPow, decide_eq_true hk, Bool.true_and]
    exact decide_eq_decide.mpr (by omega)
  · rw [bit, Function.update_of_ne hj, ← bit, decide_eq_false (by omega),
      Bool.or_false]

/-! ## Clearing -/

/-- No bit cleared is the map unchanged. -/
theorem clears_zero (f : Nat → Byte) (x : Nat) : Clears f f x 0 := by
  intro y
  rw [decide_eq_false (by omega), Bool.not_false, Bool.and_true]

/-- Bits cleared one range after the other. -/
theorem clears_trans (h₁ : Clears f f' x n) (h₂ : Clears f' f'' (x + n) m) :
    Clears f f'' x (n + m) := by
  intro y
  rw [h₂ y, h₁ y, Bool.and_assoc, ← Bool.not_or, ← Bool.decide_or]
  congr 2
  exact decide_eq_decide.mpr (by omega)

/-- Clearing no bits happens anywhere. -/
theorem clears_at (h : Clears f f' x n) (hx : x = y ∨ n = 0) :
    Clears f f' y n := by
  rcases hx with rfl | rfl
  · exact h
  · intro z
    rw [h z, decide_eq_false (by omega), decide_eq_false (by omega)]

/-- Bits elsewhere are as they were. -/
theorem bit_of_clears (h : Clears f f' x n) (hy : y < x ∨ x + n ≤ y) :
    bit f' y = bit f y := by
  rw [h y, decide_eq_false (by omega), Bool.not_false, Bool.and_true]

/-- Clearing bits leaves those behind them. -/
theorem allSet_of_clears (h : Clears f f' x n) (hs : AllSet f x e) :
    AllSet f' (x + n) e := by
  intro y h₁ h₂
  rw [bit_of_clears h (Or.inr h₁)]
  exact hs y (by omega) h₂

/-- Some bits of one byte are cleared. -/
theorem clears_update {j k : Nat} {v : Byte} (hk : k + m ≤ 8)
    (hv : ∀ l < 8, v.getLsbD l =
      ((f j).getLsbD l && !decide (k ≤ l ∧ l < k + m))) :
    Clears f (Function.update f j v) (8 * j + k) m := by
  intro y
  by_cases hj : y / 8 = j
  · subst hj
    rw [bit, Function.update_self, hv _ (Nat.mod_lt _ (by omega)), ← bit]
    congr 2
    exact decide_eq_decide.mpr (by omega)
  · rw [bit, Function.update_of_ne hj, ← bit, decide_eq_false (by omega),
      Bool.not_false, Bool.and_true]

/-- A byte outside the bits that were cleared. -/
theorem byte_of_clears {j : Nat} (h : Clears f f' x n)
    (hy : 8 * (j + 1) ≤ x ∨ x + n ≤ 8 * j) : f' j = f j := by
  refine BitVec.eq_of_getLsbD_eq fun k hk => ?_
  rw [← bit_byte hk, ← bit_byte hk]
  exact bit_of_clears h (by omega)

/-- Clear bits that were marked are cleared again. -/
theorem bit_of_marks_clears (hm : Marks f f' x n) (hf : Clear f x n)
    (hc : Clears g f'' x n) (hg : bit g y = bit f' y) :
    bit f'' y = bit f y := by
  rw [hc, hg, hm]
  by_cases hy : x ≤ y ∧ y < x + n
  · rw [decide_eq_true hy, Bool.not_true, Bool.and_false, hf y hy.1 hy.2]
  · rw [decide_eq_false hy, Bool.or_false, Bool.not_false, Bool.and_true]

/-! ## Blocks -/

/-- A bit of a map that starts later. -/
theorem bit_drop (f : Nat → Byte) (a y : Nat) :
    bit (drop f a) y = bit f (8 * a + y) := by
  rw [bit, bit, drop, show (8 * a + y) / 8 = a + y / 8 by omega,
    show (8 * a + y) % 8 = y % 8 by omega]

/-- A bit inside the bytes that were put. -/
theorem bit_put_of_in {a : Nat} (h : 8 * a ≤ y ∧ y < 8 * (a + n)) :
    bit (put f a n g) y = bit g (y - 8 * a) := by
  rw [bit, put_of_in (by omega), bit, show (y - 8 * a) / 8 = y / 8 - a by omega,
    show (y - 8 * a) % 8 = y % 8 by omega]

/-- A bit outside of them. -/
theorem bit_put_of_out {a : Nat} (h : y < 8 * a ∨ 8 * (a + n) ≤ y) :
    bit (put f a n g) y = bit f y := by
  rw [bit, put_of_out (by omega), bit]

/-- A block is read, marked and written back. -/
theorem marks_block {b : Nat → Byte} {a : Nat}
    (hread : ∀ y < 8 * m, bit b y = bit f (8 * a + y))
    (h : Marks b g x n) (hx : x + n ≤ 8 * m) :
    Marks f (put f a m g) (8 * a + x) n := by
  intro y
  by_cases hy : 8 * a ≤ y ∧ y < 8 * (a + m)
  · rw [bit_put_of_in hy, h, hread _ (by omega),
      show 8 * a + (y - 8 * a) = y by omega]
    congr 1
    exact decide_eq_decide.mpr (by omega)
  · rw [bit_put_of_out (by omega), decide_eq_false (by omega), Bool.or_false]

/-- A block is read, cleared in part and written back. -/
theorem clears_block {b : Nat → Byte} {a : Nat}
    (hread : ∀ y < 8 * m, bit b y = bit f (8 * a + y))
    (h : Clears b g x n) (hx : x + n ≤ 8 * m) :
    Clears f (put f a m g) (8 * a + x) n := by
  intro y
  by_cases hy : 8 * a ≤ y ∧ y < 8 * (a + m)
  · rw [bit_put_of_in hy, h, hread _ (by omega),
      show 8 * a + (y - 8 * a) = y by omega]
    congr 2
    exact decide_eq_decide.mpr (by omega)
  · rw [bit_put_of_out (by omega), decide_eq_false (by omega), Bool.not_false,
      Bool.and_true]

end BitMap
