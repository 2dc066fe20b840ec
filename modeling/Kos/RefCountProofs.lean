import Mathlib.Algebra.BigOperators.Group.Finset.Basic
import Mathlib.Algebra.Order.BigOperators.Group.Finset
import Mathlib.Data.Fintype.BigOperators
import Mathlib.Logic.Function.Basic

/-! # Reference counts

    Slots point to records and records to objects.  A record counts the slots
    that point to it; an object counts its uses, which are those of the slots
    behind its records and some others.

    * `Exact R other` says that the counts are right, where `other` are the
      other uses of the objects;
    * it is kept when a slot gets a free record (`exact_point`) or shares one
      (`exact_share`), and when a slot is given up (`exact_release`);
    * objects in use may have different keys (`Distinct`), of which a new one
      gets one of its own (`distinct_update`). -/

namespace RefCount

/-- Slots, records and objects. -/
structure Refs (σ δ ι : Type) where
  slot : σ → Option δ
  count : δ → Int
  target : δ → Option ι
  uses : ι → Int

variable {σ δ ι : Type}

/-- The slots that point to the record. -/
def slots [Fintype σ] [DecidableEq δ] (R : Refs σ δ ι) (d : δ) : Int :=
  ∑ x, if R.slot x = some d then 1 else 0

/-- The counts of the records that point to the object. -/
def held [Fintype δ] [DecidableEq ι] (R : Refs σ δ ι) (i : ι) : Int :=
  ∑ d, if R.target d = some i then R.count d else 0

/-- The counts are right, and a record is free when no slot points to it. -/
structure Exact [Fintype σ] [Fintype δ] [DecidableEq δ] [DecidableEq ι]
    (R : Refs σ δ ι) (other : ι → Int) : Prop where
  count : ∀ d, R.count d = slots R d
  free : ∀ d, R.target d = none ↔ slots R d = 0
  uses : ∀ i, R.uses i = held R i + other i

/-! ## The operations -/

section Define

variable [DecidableEq σ] [DecidableEq δ] [DecidableEq ι] (R : Refs σ δ ι) (x : σ) (d : δ) (i : ι)

/-- The slot gets a record of its own. -/
def Refs.point : Refs σ δ ι where
  slot := Function.update R.slot x (some d)
  count := Function.update R.count d 1
  target := Function.update R.target d (some i)
  uses := Function.update R.uses i (R.uses i + 1)

/-- The slot points to a record that others point to. -/
def Refs.share : Refs σ δ ι where
  slot := Function.update R.slot x (some d)
  count := Function.update R.count d (R.count d + 1)
  target := R.target
  uses := Function.update R.uses i (R.uses i + 1)

/-- The slot is given up; without slots the record is free. -/
def Refs.release : Refs σ δ ι where
  slot := Function.update R.slot x none
  count := Function.update R.count d (R.count d - 1)
  target := Function.update R.target d
    (if R.count d - 1 = 0 then none else R.target d)
  uses := Function.update R.uses i (R.uses i - 1)

end Define

/-! ## Sums with one term exchanged -/

/-- A sum with one term exchanged. -/
theorem sum_exchange {α : Type} [Fintype α] [DecidableEq α] {f g : α → Int}
    (a : α) (h : ∀ x, x ≠ a → g x = f x) :
    ∑ x, g x = ∑ x, f x - f a + g a := by
  have hf := Finset.add_sum_erase Finset.univ f (Finset.mem_univ a)
  have hg := Finset.add_sum_erase Finset.univ g (Finset.mem_univ a)
  have hrest : ∑ x ∈ Finset.univ.erase a, g x =
      ∑ x ∈ Finset.univ.erase a, f x :=
    Finset.sum_congr rfl fun x hx => h x (Finset.ne_of_mem_erase hx)
  rw [← hf, ← hg, hrest]
  omega

section Sums

variable {R S : Refs σ δ ι} {x : σ} {d : δ}

/-- A descriptor is in a number of slots. -/
theorem slots_nonneg [Fintype σ] [DecidableEq δ] (R : Refs σ δ ι) (d : δ) : 0 ≤ slots R d :=
  Finset.sum_nonneg fun x _ => by split <;> decide

/-- The slots of a record after one slot has changed. -/
theorem slots_update [Fintype σ] [DecidableEq σ] [DecidableEq δ] {v : Option δ}
    (h : S.slot = Function.update R.slot x v) (e : δ) :
    slots S e = slots R e - (if R.slot x = some e then 1 else 0) +
      if v = some e then 1 else 0 := by
  have hsum := sum_exchange (f := fun y => if R.slot y = some e then
    (1 : Int) else 0) (g := fun y => if S.slot y = some e then 1 else 0) x
    fun y hy => by rw [h, Function.update_of_ne hy]
  rw [h, Function.update_self, ← h] at hsum
  exact hsum

/-- What is held of an object after one record has changed. -/
theorem held_update [Fintype δ] [DecidableEq δ] [DecidableEq ι] {n : Int} {v : Option ι}
    (hc : S.count = Function.update R.count d n)
    (ht : S.target = Function.update R.target d v) (j : ι) :
    held S j = held R j - (if R.target d = some j then R.count d else 0) +
      if v = some j then n else 0 := by
  have hsum := sum_exchange (f := fun e => if R.target e = some j then
    R.count e else 0) (g := fun e => if S.target e = some j then S.count e
    else 0) d fun e he => by
      rw [hc, ht, Function.update_of_ne he, Function.update_of_ne he]
  have hself : S.target d = v ∧ S.count d = n := by
    rw [hc, ht, Function.update_self, Function.update_self]
    exact ⟨rfl, rfl⟩
  rw [hself.1, hself.2] at hsum
  exact hsum

end Sums

/-! ## What the operations keep -/

section Operations

variable [Fintype σ] [Fintype δ] [DecidableEq δ] [DecidableEq ι]
  {R : Refs σ δ ι} {other : ι → Int} {d : δ} {i : ι}

/-- One slot more or less (`k`) at the record and at its object, which both
    count it, keeps the counts right; only whether the record is free is
    left. -/
theorem exact_change {S : Refs σ δ ι} {k : Int} {v : Option ι}
    (h : Exact R other)
    (hslots : ∀ e, slots S e = slots R e + if d = e then k else 0)
    (hheld : ∀ j, held S j = held R j + if i = j then k else 0)
    (hcount : S.count = Function.update R.count d (R.count d + k))
    (htarget : S.target = Function.update R.target d v)
    (huses : S.uses = Function.update R.uses i (R.uses i + k))
    (hfree : v = none ↔ slots R d + k = 0) : Exact S other := by
  constructor
  case count =>
    intro e
    rw [hslots, hcount, ← h.count]
    by_cases he : d = e
    · subst he
      rw [if_pos rfl, Function.update_self]
    · rw [if_neg he, Int.add_zero, Function.update_of_ne (Ne.symm he)]
  case free =>
    intro e
    rw [hslots, htarget]
    by_cases he : d = e
    · subst he
      rw [if_pos rfl, Function.update_self]
      exact hfree
    · rw [if_neg he, Int.add_zero, Function.update_of_ne (Ne.symm he)]
      exact h.free e
  case uses =>
    intro j
    rw [hheld, huses]
    have hold := h.uses j
    by_cases hj : i = j
    · subst hj
      rw [if_pos rfl, Function.update_self]
      omega
    · rw [if_neg hj, Int.add_zero, Function.update_of_ne (Ne.symm hj)]
      exact hold

variable [DecidableEq σ] {x : σ}

/-- Counts stay exact when a free slot is pointed at a free descriptor. -/
theorem exact_point (h : Exact R other) (hx : R.slot x = none)
    (hd : R.target d = none) : Exact (R.point x d i) other := by
  have hzero := (h.free d).mp hd
  have hnone : R.count d = 0 := (h.count d).trans hzero
  refine exact_change (d := d) (i := i) (k := 1) (v := some i) h
    (fun e => ?_) (fun j => ?_) ?_ rfl rfl ?_
  · have hup := slots_update (S := R.point x d i) rfl e
    rw [hx, if_neg (Option.some_ne_none e).symm] at hup
    rw [hup, Int.sub_zero]
    simp only [Option.some.injEq]
  · have hup := held_update (S := R.point x d i) rfl rfl j
    rw [hd, if_neg (Option.some_ne_none j).symm] at hup
    rw [hup, Int.sub_zero]
    simp only [Option.some.injEq]
  · rw [hnone]
    rfl
  · rw [hzero]
    exact iff_of_false (Option.some_ne_none i) (by decide)

/-- They stay exact when a descriptor in use is shared. -/
theorem exact_share (h : Exact R other) (hx : R.slot x = none)
    (hd : R.target d = some i) : Exact (R.share x d i) other := by
  have htarget : (R.share x d i).target =
      Function.update R.target d (some i) := by
    rw [← hd]
    exact (Function.update_eq_self ..).symm
  refine exact_change (d := d) (i := i) (k := 1) h (fun e => ?_)
    (fun j => ?_) rfl htarget rfl ?_
  · have hup := slots_update (S := R.share x d i) rfl e
    rw [hx, if_neg (Option.some_ne_none e).symm] at hup
    rw [hup, Int.sub_zero]
    simp only [Option.some.injEq]
  · have hup := held_update (S := R.share x d i) rfl htarget j
    rw [hd] at hup
    rw [hup]
    simp only [Option.some.injEq]
    split <;> omega
  · have hpos := slots_nonneg R d
    exact iff_of_false (Option.some_ne_none i) (by omega)

/-- They stay exact when a slot is released. -/
theorem exact_release (h : Exact R other) (hx : R.slot x = some d)
    (hd : R.target d = some i) : Exact (R.release x d i) other := by
  refine exact_change (d := d) (i := i) (k := -1) h (fun e => ?_)
    (fun j => ?_) rfl rfl rfl ?_
  · have hup := slots_update (S := R.release x d i) rfl e
    rw [hx, if_neg (Option.some_ne_none e).symm] at hup
    rw [hup]
    simp only [Option.some.injEq]
    split <;> omega
  · have hup := held_update (S := R.release x d i) rfl rfl j
    rw [hup, hd]
    -- the last slot frees the record, whose count was 1
    by_cases hlast : R.count d - 1 = 0
    · rw [if_pos hlast, if_neg (Option.some_ne_none j).symm]
      simp only [Option.some.injEq]
      split <;> omega
    · rw [if_neg hlast]
      simp only [Option.some.injEq]
      split <;> omega
  · rw [← h.count]
    by_cases hlast : R.count d - 1 = 0
    · rw [if_pos hlast]
      exact iff_of_true rfl hlast
    · rw [if_neg hlast, hd]
      exact iff_of_false (Option.some_ne_none i) hlast

end Operations

/-! ## What exact counts say -/

section Exact

variable [Fintype σ] [Fintype δ] [DecidableEq δ] [DecidableEq ι]
  {R : Refs σ δ ι} {other : ι → Int} {d : δ} {i : ι}

/-- Where counts are exact, no inode is held less than zero times. -/
theorem exact_held_nonneg (h : Exact R other) (i : ι) : 0 ≤ held R i := by
  refine Finset.sum_nonneg fun d _ => ?_
  split
  · rw [h.count]
    exact slots_nonneg R d
  · exact Int.le_refl 0

/-- An object is in use as long as a record points to it. -/
theorem exact_pos (h : Exact R other) (hd : R.target d = some i) :
    0 < held R i := by
  have hused : 0 < R.count d := by
    have hnonneg := slots_nonneg R d
    have hne : slots R d ≠ 0 := fun hz => by
      rw [(h.free d).mpr hz] at hd
      cases hd
    rw [h.count]
    omega
  have hle := Finset.single_le_sum (f := fun e => if R.target e = some i then
    R.count e else 0) (fun e _ => by
      split
      · rw [h.count]
        exact slots_nonneg R e
      · exact Int.le_refl 0) (Finset.mem_univ d)
  rw [if_pos hd] at hle
  exact Int.lt_of_lt_of_le hused hle

/-- Where counts are exact, none is negative. -/
theorem exact_uses_nonneg (h : Exact R other) (hother : ∀ i, 0 ≤ other i)
    (i : ι) : 0 ≤ R.uses i := by
  rw [h.uses]
  exact Int.add_nonneg (exact_held_nonneg h i) (hother i)

theorem exact_used (h : Exact R other) (hother : ∀ i, 0 ≤ other i)
    (hd : R.target d = some i) : 0 < R.uses i := by
  rw [h.uses]
  exact Int.add_pos_of_pos_of_nonneg (exact_pos h hd) (hother i)

/-- The slots and the records say what the uses of the objects are. -/
theorem exact_iff_uses {S : Refs σ δ ι} (h : Exact R other)
    (hslot : S.slot = R.slot) (hcount : S.count = R.count)
    (htarget : S.target = R.target) : Exact S other ↔ S.uses = R.uses := by
  have hheld : held S = held R := by
    funext i
    rw [held, held, hcount, htarget]
  constructor
  · intro hS
    funext i
    rw [hS.uses, h.uses, hheld]
  · intro huses
    have hsame : S = R := by
      cases S
      cases R
      cases hslot
      cases hcount
      cases htarget
      cases huses
      rfl
    rw [hsame]
    exact h

end Exact

/-! ## Objects with keys -/

section Keys

variable {κ : Type} {uses uses' : ι → Int} {key : ι → κ}

/-- Objects in use have different keys. -/
def Distinct (uses : ι → Int) (key : ι → κ) : Prop :=
  ∀ i j, uses i ≠ 0 → uses j ≠ 0 → key i = key j → i = j

theorem distinct_of_used (h : Distinct uses key)
    (hused : ∀ i, uses' i ≠ 0 → uses i ≠ 0) : Distinct uses' key :=
  fun i j hi hj => h i j (hused i hi) (hused j hj)

/-- An object gets a key that no other in use has. -/
theorem distinct_update [DecidableEq ι] {i : ι} {k : κ} (h : Distinct uses key)
    (hnew : ∀ j, j ≠ i → uses j ≠ 0 → key j ≠ k) (n : Int) :
    Distinct (Function.update uses i n) (Function.update key i k) := by
  intro j j' hj hj' hkey
  by_cases hi : j = i
  · by_cases hi' : j' = i
    · exact hi.trans hi'.symm
    · rw [Function.update_of_ne hi'] at hj'
      rw [hi, Function.update_self, Function.update_of_ne hi'] at hkey
      exact absurd hkey.symm (hnew j' hi' hj')
  · rw [Function.update_of_ne hi] at hj
    by_cases hi' : j' = i
    · rw [hi', Function.update_self, Function.update_of_ne hi] at hkey
      exact absurd hkey (hnew j hi hj)
    · rw [Function.update_of_ne hi'] at hj'
      rw [Function.update_of_ne hi, Function.update_of_ne hi'] at hkey
      exact h j j' hj hj' hkey

/-- The uses of an object that a record points to may change. -/
theorem distinct_change [Fintype σ] [Fintype δ] [DecidableEq δ]
    [DecidableEq ι] {R : Refs σ δ ι} {other : ι → Int} {d : δ} {i : ι} {n : Int}
    (h : Exact R other) (hother : ∀ i, 0 ≤ other i)
    (hkey : Distinct R.uses key) (hd : R.target d = some i) :
    Distinct (Function.update R.uses i n) key := by
  refine distinct_of_used hkey fun j hj => ?_
  by_cases hi : j = i
  · have hpos := exact_used h hother hd
    rw [hi]
    omega
  · rwa [Function.update_of_ne hi] at hj

end Keys

end RefCount
