import Kos.WhileLoopProofs
import Mathlib.Tactic.Common

/-! # Screens that go round

    A console of 10922 words that has been full once, as numbers: the cursor
    `p` and the first word `a` of the screen, on a console that starts at `s`.
    `nextStart` is `scroll_screen` downwards, on 32-bit words.

    * a screen before the cursor moves down to it (`stops_below`), and so does
      one behind it, round the addresses or the end of the ring;
    * only on a console at address 0 it may meet the cursor's row from the
      wrong side, and then it stays there (`stops_iff`). -/

namespace KosConsole

open WhileLoop

/-! ## Screens before the cursor -/

section Starts

variable {s p a : Nat}

/-- The first word of the cursor's row. -/
def rowStart (s p : Nat) : Nat := s + (p - s) / 80 * 80

/-- The screen does not show the cursor. -/
def Hidden (p a : Nat) : Prop := (a + 2000) % 4294967296 ≤ p ∨ p < a

theorem hidden_above (h : p < a) : Hidden p a := Or.inr h

/-- `SCROLL_DN`. -/
def nextStart (s p a : Nat) : Nat :=
  if (a + 1920) % 4294967296 = rowStart s p then a
  else if (a + 2000) % 4294967296 = s + 10922 then s
  else (a + 80) % 4294967296

/-- The cursor is on its console. -/
structure OnConsole (s p : Nat) : Prop where
  start_le : s ≤ 10922
  le : s ≤ p
  lt : p < s + 10922

theorem rowStart_le (h : OnConsole s p) :
    s ≤ rowStart s p ∧ rowStart s p ≤ p ∧ p < rowStart s p + 80 := by
  have hle := h.le
  rw [rowStart]
  omega

/-- Rows are whole. -/
theorem rowStart_mod (s p : Nat) : (rowStart s p - s) % 80 = 0 := by
  rw [rowStart, Nat.add_sub_cancel_left, Nat.mul_mod_left]

/-- A screen that starts before the cursor and does not show it moves down a
    row. -/
theorem nextStart_below (h : OnConsole s p) (ha : a ≤ p) (hhid : Hidden p a) :
    a + 2000 ≤ p ∧ nextStart s p a = a + 80 := by
  obtain ⟨h1, h2, h3⟩ := h
  obtain ⟨-, hrow, hrow'⟩ := rowStart_le ⟨h1, h2, h3⟩
  have hfar : a + 2000 ≤ p := by
    rw [Hidden] at hhid
    omega
  refine ⟨hfar, ?_⟩
  rw [nextStart, if_neg (by omega), if_neg (by omega)]
  omega

theorem stops_below (h : OnConsole s p) (ha : a ≤ p) :
    Stops (Hidden p) (nextStart s p) a := by
  induction hn : p - a using Nat.strongRecOn generalizing a with
  | ind n ih =>
      by_cases hhid : Hidden p a
      · obtain ⟨hfar, hnext⟩ := nextStart_below h ha hhid
        rw [stops_round hhid, hnext]
        exact ih (p - (a + 80)) (by omega) (by omega) rfl
      · exact stops_now hhid

theorem nextStart_above (h : OnConsole s p) (ha : p < a)
    (hrefused : a + 1920 ≠ 4294967296 + rowStart s p)
    (hend : a + 2000 ≠ s + 10922) (hlt : a < 4294967296) :
    nextStart s p a = (a + 80) % 4294967296 := by
  obtain ⟨h1, h2, h3⟩ := h
  obtain ⟨-, hrow, -⟩ := rowStart_le ⟨h1, h2, h3⟩
  rw [nextStart, if_neg (by omega), if_neg (by omega)]

/-- Where the cursor's row is behind the first screen, the screen comes round
    to it. -/
theorem stops_of_row (h : OnConsole s p) (hrow : 1920 ≤ rowStart s p)
    (hlt : a < 4294967296) : Stops (Hidden p) (nextStart s p) a := by
  have hle := (rowStart_le h).2.1
  induction hn : 4294967296 - a using Nat.strongRecOn generalizing a with
  | ind n ih =>
      by_cases hbelow : a ≤ p
      · exact stops_below h hbelow
      · have hhid : Hidden p a := Or.inr (by omega)
        rw [stops_round hhid]
        by_cases hend : a + 2000 = s + 10922
        · have hnext : nextStart s p a = s := by
            have h1 := h.start_le
            rw [nextStart, if_neg (by omega), if_pos (by omega)]
          rw [hnext]
          exact stops_below h h.le
        · rw [nextStart_above h (by omega) (by omega) hend hlt]
          by_cases htop : a + 80 < 4294967296
          · rw [Nat.mod_eq_of_lt htop]
            exact ih (4294967296 - (a + 80)) (by omega) htop rfl
          · exact stops_below h (by omega)

end Starts

/-! ## The console at the start of video memory -/

section First

variable {p a : Nat}

/-- One turn round the addresses takes a screen that meets neither the end of
    the ring nor the cursor's row to the top again. -/
theorem stops_turn (h : OnConsole 0 p) (ha : p < a) (hlt : a < 4294967296)
    (hrefused : a % 80 ≠ 16 ∨ 4294967296 + rowStart 0 p < a + 1920)
    (hend : a % 80 ≠ 42 ∨ 8922 < a) :
    Stops (Hidden p) (nextStart 0 p) a ↔
      Stops (Hidden p) (nextStart 0 p) ((a % 80 + 64) % 80) := by
  have hmul := rowStart_mod 0 p
  induction hn : 4294967296 - a using Nat.strongRecOn generalizing a with
  | ind n ih =>
      rw [stops_round (hidden_above ha),
        nextStart_above h ha (by omega) (by omega) hlt]
      by_cases htop : a + 80 < 4294967296
      · rw [Nat.mod_eq_of_lt htop, show a % 80 = (a + 80) % 80 by omega]
        exact ih (4294967296 - (a + 80)) (by omega) (by omega) htop (by omega)
          (by omega) rfl
      · rw [show (a + 80) % 4294967296 = (a % 80 + 64) % 80 by omega]

/-- A screen that meets the cursor's row from before the first address stays
    there. -/
theorem stuck_climb (h : OnConsole 0 p) (ha : p < a) (hrow : rowStart 0 p < 1920)
    (hmod : a % 80 = 16) (hle : a + 1920 ≤ 4294967296 + rowStart 0 p) :
    ¬ Stops (Hidden p) (nextStart 0 p) a := by
  have hmul := rowStart_mod 0 p
  induction hn : 4294967296 - a using Nat.strongRecOn generalizing a with
  | ind n ih =>
      by_cases hthere : a + 1920 = 4294967296 + rowStart 0 p
      · refine not_stops_of_fixed (hidden_above ha) ?_
        rw [nextStart, if_pos (by omega)]
      · rw [stops_round (hidden_above ha),
          nextStart_above h ha hthere (by omega) (by omega),
          Nat.mod_eq_of_lt (by omega)]
        exact ih (4294967296 - (a + 80)) (by omega) (by omega) (by omega) (by omega) rfl

/-- A screen that meets the end of the ring starts again. -/
theorem stops_climb (h : OnConsole 0 p) (hmod : a % 80 = 42) (hle : a ≤ 8922) :
    Stops (Hidden p) (nextStart 0 p) a := by
  have hmul := rowStart_mod 0 p
  induction hn : 8922 - a using Nat.strongRecOn generalizing a with
  | ind n ih =>
      by_cases hbelow : a ≤ p
      · exact stops_below h hbelow
      · rw [stops_round (hidden_above (by omega))]
        by_cases hthere : a = 8922
        · have hnext : nextStart 0 p a = 0 := by
            rw [nextStart, if_neg (by omega), if_pos (by omega)]
          rw [hnext]
          exact stops_below h h.le
        · rw [nextStart_above h (by omega) (by omega) (by omega) (by omega),
            Nat.mod_eq_of_lt (by omega)]
          exact ih (8922 - (a + 80)) (by omega) (by omega) (by omega) rfl

/-- Screens that are not whole words of 16 before a row's start meet the end of
    the ring after five turns at most. -/
theorem stops_odd (h : OnConsole 0 p) (hmod : a % 16 = 10) (hlt : a < 4294967296) :
    Stops (Hidden p) (nextStart 0 p) a := by
  have hturn : ∀ b : Nat, b < 4294967296 → b % 80 ≠ 16 → (b % 80 ≠ 42 ∨ 8922 < b) →
      Stops (Hidden p) (nextStart 0 p) ((b % 80 + 64) % 80) →
        Stops (Hidden p) (nextStart 0 p) b := by
    intro b hb hb16 hb42 hstops
    by_cases hbelow : b ≤ p
    · exact stops_below h hbelow
    · exact (stops_turn h (by omega) hb (Or.inl hb16) hb42).mpr hstops
  have h42 : Stops (Hidden p) (nextStart 0 p) 42 :=
    stops_climb h (by decide) (by decide)
  have h58 := hturn 58 (by decide) (by decide) (Or.inl (by decide)) h42
  have h74 := hturn 74 (by decide) (by decide) (Or.inl (by decide)) h58
  have h10 := hturn 10 (by decide) (by decide) (Or.inl (by decide)) h74
  have h26 := hturn 26 (by decide) (by decide) (Or.inl (by decide)) h10
  by_cases hring : a % 80 = 42 ∧ a ≤ 8922
  · exact stops_climb h hring.1 hring.2
  · refine hturn a hlt (by omega) (by omega) ?_
    have hcases : a % 80 = 10 ∨ a % 80 = 26 ∨ a % 80 = 42 ∨ a % 80 = 58 ∨
        a % 80 = 74 := by omega
    rcases hcases with hc | hc | hc | hc | hc
    · rw [hc]; exact h74
    · rw [hc]; exact h10
    · rw [hc]; exact h26
    · rw [hc]; exact h42
    · rw [hc]; exact h58

/-- A screen that is a multiple of 16 comes to rest at 64, 48, 32 or 16, if
    the cursor is not before it, and else meets the cursor's row. -/
theorem stops_even (h : OnConsole 0 p) (ha : p < a) (hmod : a % 16 = 0)
    (h16 : a % 80 ≠ 16) (hlt : a < 4294967296) :
    Stops (Hidden p) (nextStart 0 p) a ↔ 16 ≤ p := by
  have hturn : ∀ b : Nat, 16 ≤ b → b < 4294967296 → b % 16 = 0 → b % 80 ≠ 16 →
      (Stops (Hidden p) (nextStart 0 p) ((b % 80 + 64) % 80) ↔ 16 ≤ p) →
        (Stops (Hidden p) (nextStart 0 p) b ↔ 16 ≤ p) := by
    intro b hb hb32 hb16 hne hiff
    by_cases hbelow : b ≤ p
    · exact iff_of_true (stops_below h hbelow) (by omega)
    · rw [stops_turn h (by omega) hb32 (Or.inl hne) (by omega), hiff]
  have h16' : Stops (Hidden p) (nextStart 0 p) 16 ↔ 16 ≤ p := by
    by_cases hbelow : 16 ≤ p
    · exact iff_of_true (stops_below h hbelow) hbelow
    · have hrow := (rowStart_le h).2.1
      exact iff_of_false (stuck_climb h (by omega) (by omega) rfl (by omega))
        hbelow
  have h32 := hturn 32 (by decide) (by decide) rfl (by decide) h16'
  have h48 := hturn 48 (by decide) (by decide) rfl (by decide) h32
  have h64 := hturn 64 (by decide) (by decide) rfl (by decide) h48
  refine hturn a (by omega) hlt hmod h16 ?_
  have hcases : a % 80 = 0 ∨ a % 80 = 32 ∨ a % 80 = 48 ∨ a % 80 = 64 := by omega
  rcases hcases with hc | hc | hc | hc
  · rw [hc]; exact h64
  · rw [hc]; exact h16'
  · rw [hc]; exact h32
  · rw [hc]; exact h48

end First

/-! ## All consoles -/

section All

variable {s p a : Nat}

/-- The screen goes round and stays where it does not show the cursor. -/
def Trapped (s p a : Nat) : Prop :=
  s = 0 ∧ p < a ∧ a % 16 = 0 ∧
    (a % 80 ≠ 16 ∧ p < 16 ∨
      a % 80 = 16 ∧ rowStart 0 p < 1920 ∧ a + 1920 ≤ 4294967296 + rowStart 0 p)

/-- **THE LOOP ON A FULL CONSOLE** ends unless the screen is trapped. -/
theorem stops_iff (h : OnConsole s p) (hs : s = 0 ∨ 1920 ≤ s)
    (hclass : s = 0 → a % 16 = 0 ∨ a % 16 = 10) (hlt : a < 4294967296) :
    Stops (Hidden p) (nextStart s p) a ↔ ¬ Trapped s p a := by
  rcases hs with rfl | hs
  · by_cases hbelow : a ≤ p
    · exact iff_of_true (stops_below h hbelow) fun ht => by
        have := ht.2.1
        omega
    rcases hclass rfl with heven | hodd
    · by_cases h16 : a % 80 = 16
      · by_cases hmeets : rowStart 0 p < 1920 ∧ a + 1920 ≤ 4294967296 + rowStart 0 p
        · refine iff_of_false
            (stuck_climb h (by omega) hmeets.1 h16 hmeets.2) fun hnot => ?_
          exact hnot ⟨rfl, by omega, heven, Or.inr ⟨h16, hmeets⟩⟩
        · refine iff_of_true ?_ fun ht => ?_
          · -- the cursor's row is behind: the screen comes to the first word
            by_cases hrow : 1920 ≤ rowStart 0 p
            · exact stops_of_row h hrow hlt
            · rw [stops_turn h (by omega) hlt (Or.inr (by omega))
                (Or.inl (by omega)), h16]
              exact stops_below h h.le
          · rcases ht.2.2.2 with hother | hsame
            · exact hother.1 h16
            · exact hmeets hsame.2
      · rw [stops_even h (by omega) heven h16 hlt]
        constructor
        · intro hle ht
          rcases ht.2.2.2 with hother | hsame
          · omega
          · exact h16 hsame.1
        · intro hnot
          by_contra hlt16
          exact hnot ⟨rfl, by omega, heven, Or.inl ⟨h16, by omega⟩⟩
    · refine iff_of_true (stops_odd h hodd hlt) fun ht => ?_
      have := ht.2.2.1
      omega
  · have hrow := (rowStart_le h).1
    refine iff_of_true (stops_of_row h (by omega) hlt) fun ht => ?_
    have := ht.1
    omega

end All

end KosConsole
