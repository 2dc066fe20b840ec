import Kos.FlatMemoryProofs
import Kos.OverlayProofs
import Mathlib.Data.List.GetD

/-! # Strings that end with a NUL

    Characters in a store of bytes, up to the first NUL.

    * `StrAt f a s` says that `s` and its NUL are in `f` at `a`; there is at
      most one such `s` (`strAt_unique`), and `readStr` finds it
      (`readStr_eq_some`);
    * `strcpy` writes a string and its NUL and nothing else (`strAt_strcpy`,
      `strcpy_of_out`). -/

namespace CString

open FlatMemory (Byte)
open Overlay

/-- The string `s` and its NUL are at `a`. -/
structure StrAt (f : Nat → Byte) (a : Nat) (s : List Byte) : Prop where
  chars : ∀ k, k < s.length → f (a + k) = s.getD k 0
  nul : f (a + s.length) = 0
  noNul : ∀ b ∈ s, b ≠ 0

/-- The characters from `a` on, if a NUL is among the first `n`. -/
def readStr (f : Nat → Byte) : Nat → Nat → Option (List Byte)
  | 0, _ => none
  | n + 1, a =>
      if f a = 0 then some [] else (f a :: ·) <$> readStr f n (a + 1)

/-- `strcpy`, of a string with the characters `s`. -/
def strcpy (f : Nat → Byte) (a : Nat) (s : List Byte) : Nat → Byte :=
  put f a (s.length + 1) fun k => s.getD k 0

variable {f g : Nat → Byte} {a n x : Nat} {s t : List Byte} {b : Byte}

theorem strAt_nil : StrAt f a [] ↔ f a = 0 := by
  constructor
  · exact fun h => h.nul
  · intro h
    refine ⟨fun k hk => ?_, h, fun b hb => ?_⟩
    · cases hk
    · cases hb

theorem strAt_cons :
    StrAt f a (b :: s) ↔ f a = b ∧ b ≠ 0 ∧ StrAt f (a + 1) s := by
  constructor
  · intro h
    refine ⟨h.chars 0 (Nat.succ_pos _), h.noNul b List.mem_cons_self, ?_, ?_,
      fun c hc => h.noNul c (List.mem_cons_of_mem b hc)⟩
    · intro k hk
      have hchar := h.chars (k + 1) (Nat.succ_lt_succ hk)
      rw [show a + 1 + k = a + (k + 1) by omega]
      exact hchar
    · have hnul := h.nul
      rw [List.length_cons] at hnul
      rw [show a + 1 + s.length = a + (s.length + 1) by omega]
      exact hnul
  · rintro ⟨hb, hne, h⟩
    refine ⟨fun k hk => ?_, ?_, fun c hc => ?_⟩
    · cases k with
      | zero => exact hb
      | succ k =>
          have hchar := h.chars k (Nat.lt_of_succ_lt_succ hk)
          rw [show a + (k + 1) = a + 1 + k by omega]
          exact hchar
    · rw [List.length_cons, show a + (s.length + 1) = a + 1 + s.length by omega]
      exact h.nul
    · rcases List.mem_cons.mp hc with rfl | hc
      · exact hne
      · exact h.noNul c hc

/-- A string depends on its characters and its NUL only, wherever they are. -/
theorem strAt_move {a' : Nat} (h : StrAt f a s)
    (hg : ∀ k ≤ s.length, g (a' + k) = f (a + k)) : StrAt g a' s :=
  ⟨fun k hk => (hg k (Nat.le_of_lt hk)).trans (h.chars k hk),
    (hg s.length (Nat.le_refl _)).trans h.nul, h.noNul⟩

theorem strAt_congr (h : StrAt f a s)
    (hg : ∀ k ≤ s.length, g (a + k) = f (a + k)) : StrAt g a s :=
  strAt_move h hg

/-- Its characters and its NUL. -/
theorem StrAt.byte {k : Nat} (h : StrAt f a s) (hk : k ≤ s.length) :
    f (a + k) = s.getD k 0 := by
  rcases Nat.eq_or_lt_of_le hk with rfl | hlt
  · rw [h.nul, List.getD_eq_default _ _ (Nat.le_refl _)]
  · exact h.chars k hlt

/-- **READING** finds the string that is there. -/
theorem readStr_eq_some : ∀ {n a : Nat} {s : List Byte},
    readStr f n a = some s ↔ StrAt f a s ∧ s.length < n := by
  intro n
  induction n with
  | zero =>
      intro a s
      refine ⟨fun h => ?_, fun h => absurd h.2 (Nat.not_lt_zero _)⟩
      cases h
  | succ n ih =>
      intro a s
      rw [readStr]
      by_cases hnul : f a = 0
      · rw [if_pos hnul]
        cases s with
        | nil => exact ⟨fun _ => ⟨strAt_nil.mpr hnul, Nat.succ_pos _⟩, fun _ => rfl⟩
        | cons b s =>
            constructor
            · intro h
              cases h
            · intro h
              obtain ⟨hb, hne, -⟩ := strAt_cons.mp h.1
              exact absurd (hb.symm.trans hnul) hne
      · rw [if_neg hnul]
        cases s with
        | nil =>
            refine ⟨fun h => ?_, fun h => absurd (strAt_nil.mp h.1) hnul⟩
            cases hr : readStr f n (a + 1) with
            | none =>
                rw [hr] at h
                cases h
            | some t =>
                rw [hr] at h
                cases h
        | cons b s =>
            rw [strAt_cons, List.length_cons, Nat.succ_lt_succ_iff]
            constructor
            · intro h
              cases hr : readStr f n (a + 1) with
              | none =>
                  rw [hr] at h
                  cases h
              | some t =>
                  rw [hr] at h
                  cases h
                  obtain ⟨hs, hlt⟩ := ih.mp hr
                  exact ⟨⟨rfl, hnul, hs⟩, hlt⟩
            · rintro ⟨⟨rfl, -, hs⟩, hlt⟩
              rw [ih.mpr ⟨hs, hlt⟩]
              rfl

theorem strAt_unique (h : StrAt f a s) (h' : StrAt f a t) : s = t := by
  have hs := readStr_eq_some.mpr ⟨h, (show s.length < s.length + t.length + 1 by omega)⟩
  have ht := readStr_eq_some.mpr ⟨h', (show t.length < s.length + t.length + 1 by omega)⟩
  exact Option.some.inj (hs.symm.trans ht)

theorem strAt_strcpy (hs : ∀ b ∈ s, b ≠ 0) : StrAt (strcpy f a s) a s := by
  refine ⟨fun k hk => put_at (by omega), ?_, hs⟩
  rw [strcpy, put_at (by omega)]
  exact List.getD_eq_default _ _ (Nat.le_refl _)

/-- Nothing else is written. -/
theorem strcpy_of_out (h : x < a ∨ a + s.length < x) :
    strcpy f a s x = f x := put_of_out (by omega)

end CString
