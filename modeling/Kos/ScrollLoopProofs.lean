import Kos.ConsoleProofs
import Kos.ScreenStartProofs

/-! # The loop that scrolls to the cursor

    The loop at the end of `console_print_char` scrolls down until the cursor
    is on the screen, and `scroll_screen` may refuse to move.

    * `Sound` holds of every console of a run (`sound_reach`);
    * on sound consoles a character is printed, with the cursor on the screen,
      exactly if the loop does not get stuck (`print_iff`);
    * a backspace at the first cell of a screen that has moved down gets stuck
      (`backspace_spins`). -/

namespace KosConsole

open KosKernel GuardedRun WhileLoop

/-! ## The loop on a console -/

section Loop

variable {i : Nat} {con : Console} {s t : State}

/-- Where a console starts. -/
theorem start_eq {i : Nat} (hi : i < NR_CONSOLES) (hlay : LaidOut i con) :
    con.wConsoleStart.toNat = W_TTY_CONSOLE_START i := by
  have hle := start_le hi
  rw [hlay.1, BitVec.toNat_ofNat]
  exact Nat.mod_eq_of_lt (by omega)

/-- How large it is. -/
theorem size_eq (hlay : LaidOut i con) : con.wConsoleSize = 10922#32 := by
  rw [hlay.2]
  rfl

/-- The first console, or one further on. -/
theorem start_cases {i : Nat} (hi : i < NR_CONSOLES) :
    W_TTY_CONSOLE_START i = 0 ∨ 1920 ≤ W_TTY_CONSOLE_START i := by
  have hall : ∀ i < NR_CONSOLES,
      W_TTY_CONSOLE_START i = 0 ∨ 1920 ≤ W_TTY_CONSOLE_START i := by decide
  exact hall i hi

/-- The test of the loop, on numbers. -/
theorem offScreen_iff (con : Console) :
    OffScreen con ↔ Hidden con.wCursor.toNat con.wScreenStart.toNat := by
  rw [OffScreen, Hidden, ge_iff_le, BitVec.le_def, BitVec.lt_def,
    BitVec.toNat_add, BitVec.toNat_ofNat]
  rfl

/-- The cursor is on the console, in words. -/
theorem onConsole_iff (hi : i < NR_CONSOLES) (hlay : LaidOut i con) :
    OnConsole (W_TTY_CONSOLE_START i) con.wCursor.toNat ↔ ¬ IsFull con := by
  have hle := start_le hi
  have hstart := start_eq hi hlay
  have hlt := con.wCursor.isLt
  rw [IsFull, size_eq hlay, ge_iff_le, BitVec.not_le, BitVec.lt_def,
    BitVec.toNat_sub, BitVec.toNat_ofNat, hstart]
  constructor
  · rintro ⟨h1, h2, h3⟩
    omega
  · intro h
    exact ⟨hle, by omega, by omega⟩

/-- `w_latest_offs`, in words. -/
theorem wLatestOffs_eq (hi : i < NR_CONSOLES) (hlay : LaidOut i con)
    (hcur : W_TTY_CONSOLE_START i ≤ con.wCursor.toNat) :
    W_TTY_CONSOLE_START i + (wLatestOffs con).toNat =
      rowStart (W_TTY_CONSOLE_START i) con.wCursor.toNat := by
  have hlt := con.wCursor.isLt
  have hsub : (con.wCursor - con.wConsoleStart).toNat =
      con.wCursor.toNat - W_TTY_CONSOLE_START i := by
    rw [BitVec.toNat_sub, start_eq hi hlay]
    omega
  have hwidth : (BitVec.ofNat 32 SCR_WIDTH).toNat = 80 := rfl
  rw [wLatestOffs, rowStart, BitVec.toNat_mul, BitVec.toNat_udiv, hsub, hwidth,
    Nat.mod_eq_of_lt]
  have hmul := Nat.div_mul_le_self (con.wCursor.toNat - W_TTY_CONSOLE_START i) 80
  omega

/-- `SCROLL_DN` on a console that was full. -/
theorem scrolledDn_full (hi : i < NR_CONSOLES) (hlay : LaidOut i con)
    (hon : ¬ IsFull con) (hfull : con.isFull = true) :
    (scrolledDn con).wScreenStart.toNat =
      nextStart (W_TTY_CONSOLE_START i) con.wCursor.toNat
        con.wScreenStart.toNat := by
  have hle := start_le hi
  have hc := (onConsole_iff hi hlay).mpr hon
  obtain ⟨-, hrow, -⟩ := rowStart_le hc
  obtain ⟨-, hc2, hc3⟩ := hc
  have hlatest := wLatestOffs_eq hi hlay hc2
  have hlt := con.wScreenStart.isLt
  have hstart := start_eq hi hlay
  have hsize : SCR_SIZE = 2000 := rfl
  have hwidth : SCR_WIDTH = 80 := rfl
  have hrefuse : wScreenStartOffset con + BitVec.ofNat 32 SCR_SIZE -
      BitVec.ofNat 32 SCR_WIDTH = wLatestOffs con ↔
        (con.wScreenStart.toNat + 1920) % 4294967296 =
          rowStart (W_TTY_CONSOLE_START i) con.wCursor.toNat := by
    rw [← BitVec.toNat_inj, ← hlatest, wScreenStartOffset, BitVec.toNat_sub,
      BitVec.toNat_add, BitVec.toNat_sub, BitVec.toNat_ofNat, BitVec.toNat_ofNat,
      hstart, hsize, hwidth]
    have hsmall : (wLatestOffs con).toNat < 10922 := by omega
    generalize (wLatestOffs con).toNat = l at hsmall ⊢
    omega
  have hend : wScreenStartOffset con + BitVec.ofNat 32 SCR_SIZE =
      con.wConsoleSize ↔ (con.wScreenStart.toNat + 2000) % 4294967296 =
        W_TTY_CONSOLE_START i + 10922 := by
    rw [← BitVec.toNat_inj, size_eq hlay, wScreenStartOffset, BitVec.toNat_add,
      BitVec.toNat_sub, BitVec.toNat_ofNat, BitVec.toNat_ofNat, hstart, hsize]
    omega
  rw [scrolledDn, nextStart, if_neg (by rw [hfull]; simp)]
  by_cases hr : (con.wScreenStart.toNat + 1920) % 4294967296 =
      rowStart (W_TTY_CONSOLE_START i) con.wCursor.toNat
  · rw [if_neg fun h => h.2 (hrefuse.mpr hr), if_pos hr]
  · rw [if_pos ⟨hfull, fun h => hr (hrefuse.mp h)⟩, if_neg hr]
    by_cases he : (con.wScreenStart.toNat + 2000) % 4294967296 =
        W_TTY_CONSOLE_START i + 10922
    · rw [if_pos (hend.mpr he), if_pos he]
      exact hstart
    · rw [if_neg fun h => he (hend.mp h), if_neg he]
      exact BitVec.toNat_add _ _

/-- `SCROLL_DN` on a console that was never full. -/
theorem scrolledDn_part (hi : i < NR_CONSOLES) (hlay : LaidOut i con)
    (hcur : W_TTY_CONSOLE_START i ≤ con.wCursor.toNat)
    (hbound : con.wCursor.toNat < 2147483648) (hpart : con.isFull = false)
    (hlo : W_TTY_CONSOLE_START i ≤ con.wScreenStart.toNat)
    (hhi : con.wScreenStart.toNat < 1073741824) :
    (scrolledDn con).wScreenStart.toNat =
      if con.wScreenStart.toNat + 2000 ≤
          rowStart (W_TTY_CONSOLE_START i) con.wCursor.toNat then
        con.wScreenStart.toNat + 80
      else con.wScreenStart.toNat := by
  have hle := start_le hi
  have hrow : rowStart (W_TTY_CONSOLE_START i) con.wCursor.toNat ≤
      con.wCursor.toNat := by
    rw [rowStart]
    omega
  have hlatest := wLatestOffs_eq hi hlay hcur
  have hstart := start_eq hi hlay
  have hsize : SCR_SIZE = 2000 := rfl
  have hwidth : SCR_WIDTH = 80 := rfl
  have hoffset : (wScreenStartOffset con + BitVec.ofNat 32 SCR_SIZE).toNat =
      con.wScreenStart.toNat - W_TTY_CONSOLE_START i + 2000 := by
    rw [wScreenStartOffset, BitVec.toNat_add, BitVec.toNat_sub,
      BitVec.toNat_ofNat, hstart, hsize]
    omega
  have hmoves : BitVec.sle (wScreenStartOffset con + BitVec.ofNat 32 SCR_SIZE)
      (wLatestOffs con) = true ↔ con.wScreenStart.toNat + 2000 ≤
        rowStart (W_TTY_CONSOLE_START i) con.wCursor.toNat := by
    rw [BitVec.sle_iff_toInt_le, BitVec.toInt_eq_toNat_of_lt (by omega),
      BitVec.toInt_eq_toNat_of_lt (by omega), hoffset]
    omega
  rw [scrolledDn]
  by_cases hm : con.wScreenStart.toNat + 2000 ≤
      rowStart (W_TTY_CONSOLE_START i) con.wCursor.toNat
  · rw [if_pos ⟨hpart, hmoves.mpr hm⟩, if_pos hm]
    rw [BitVec.toNat_add, BitVec.toNat_ofNat, hwidth]
    omega
  · rw [if_neg fun h => hm (hmoves.mp h.2), if_neg hm,
      if_neg (by rw [hpart]; simp)]

/-- `SCROLL_UP` on a console that was never full. -/
theorem scrolledUp_part (hi : i < NR_CONSOLES) (hlay : LaidOut i con)
    (hpart : con.isFull = false)
    (hlo : W_TTY_CONSOLE_START i ≤ con.wScreenStart.toNat)
    (hhi : con.wScreenStart.toNat < 1073741824)
    (hrow : (con.wScreenStart.toNat - W_TTY_CONSOLE_START i) % 80 = 0) :
    (scrolledUp con).wScreenStart.toNat =
      if W_TTY_CONSOLE_START i < con.wScreenStart.toNat then
        con.wScreenStart.toNat - 80
      else con.wScreenStart.toNat := by
  have hle := start_le hi
  have hoffset : (wScreenStartOffset con).toNat =
      con.wScreenStart.toNat - W_TTY_CONSOLE_START i := by
    rw [wScreenStartOffset, BitVec.toNat_sub, start_eq hi hlay]
    omega
  have hzero : (0 : BitVec 32).toInt = 0 := rfl
  have hmoves : BitVec.slt 0 (wScreenStartOffset con) = true ↔
      W_TTY_CONSOLE_START i < con.wScreenStart.toNat := by
    rw [BitVec.slt_iff_toInt_lt, hzero, BitVec.toInt_eq_toNat_of_lt (by omega),
      hoffset]
    omega
  rw [scrolledUp]
  by_cases hm : W_TTY_CONSOLE_START i < con.wScreenStart.toNat
  · rw [if_pos ⟨hpart, hmoves.mpr hm⟩, if_pos hm]
    show (con.wScreenStart - 80#32).toNat = _
    rw [BitVec.toNat_sub]
    show (4294967296 - 80 + con.wScreenStart.toNat) % 4294967296 = _
    omega
  · rw [if_neg fun h => hm (hmoves.mp h.2), if_neg hm,
      if_neg (by rw [hpart]; simp)]

/-- `SCROLL_UP` on a console that was full: from the console's start the screen
    goes to the last words of the ring. -/
theorem scrolledUp_full (hi : i < NR_CONSOLES) (hlay : LaidOut i con)
    (hon : ¬ IsFull con) (hfull : con.isFull = true) :
    (con.wScreenStart.toNat = W_TTY_CONSOLE_START i ∧
      (scrolledUp con).wScreenStart.toNat =
        if con.wCursor.toNat < W_TTY_CONSOLE_START i + 8922 then
          W_TTY_CONSOLE_START i + 8922
        else W_TTY_CONSOLE_START i) ∨
    (con.wScreenStart.toNat ≠ W_TTY_CONSOLE_START i ∧
      ((scrolledUp con).wScreenStart.toNat = con.wScreenStart.toNat ∨
        (scrolledUp con).wScreenStart.toNat =
          (4294967296 - 80 + con.wScreenStart.toNat) % 4294967296)) := by
  have hle := start_le hi
  have hc := (onConsole_iff hi hlay).mpr hon
  obtain ⟨-, hrow, -⟩ := rowStart_le hc
  obtain ⟨-, hc2, hc3⟩ := hc
  have hlatest := wLatestOffs_eq hi hlay hc2
  have hstart := start_eq hi hlay
  have hsub : (con.wScreenStart - BitVec.ofNat 32 SCR_WIDTH).toNat =
      (4294967296 - 80 + con.wScreenStart.toNat) % 4294967296 := BitVec.toNat_sub _ _
  have hsame : con.wScreenStart = con.wConsoleStart ↔
      con.wScreenStart.toNat = W_TTY_CONSOLE_START i := by
    rw [← BitVec.toNat_inj, hstart]
  have hend : con.wConsoleSize - BitVec.ofNat 32 SCR_SIZE = 8922#32 := by
    rw [size_eq hlay]
    rfl
  have hlast : con.wCursor - con.wConsoleStart ≥
      con.wConsoleSize - BitVec.ofNat 32 SCR_SIZE ↔
        W_TTY_CONSOLE_START i + 8922 ≤ con.wCursor.toNat := by
    rw [ge_iff_le, hend, BitVec.le_def, BitVec.toNat_sub, BitVec.toNat_ofNat,
      hstart]
    omega
  have hjump : (con.wConsoleStart +
      (con.wConsoleSize - BitVec.ofNat 32 SCR_SIZE)).toNat =
        W_TTY_CONSOLE_START i + 8922 := by
    rw [hend, BitVec.toNat_add, hstart, BitVec.toNat_ofNat]
    omega
  rw [scrolledUp, if_neg (by rw [hfull]; simp)]
  by_cases hs : con.wScreenStart = con.wConsoleStart
  · refine Or.inl ⟨hsame.mp hs, ?_⟩
    -- the oldest row is never the first one: the size is not whole rows
    have hold : wScreenStartOffset con ≠ wOldestOffs con := by
      have hwidth : SCR_WIDTH = 80 := rfl
      have hmul : (wLatestOffs con).toNat % 80 = 0 := by
        have heq := hlatest
        rw [rowStart] at heq
        omega
      have hsmall : (wLatestOffs con).toNat < 10922 := by omega
      rw [wOldestOffs, if_pos hfull, wScreenStartOffset, hs, BitVec.sub_self,
        size_eq hlay, Ne, ← BitVec.toNat_inj, BitVec.toNat_umod,
        BitVec.toNat_add, BitVec.toNat_ofNat, BitVec.toNat_ofNat,
        BitVec.toNat_ofNat, hwidth, show 10922 % 4294967296 = 10922 from rfl]
      have hsum : ((wLatestOffs con).toNat + 80 % 4294967296) % 4294967296 =
          (wLatestOffs con).toNat + 80 := by omega
      rw [hsum]
      by_cases hfirst : (wLatestOffs con).toNat + 80 < 10922
      · rw [Nat.mod_eq_of_lt hfirst]
        omega
      · omega
    rw [if_pos ⟨hfull, hold⟩]
    by_cases hl : W_TTY_CONSOLE_START i + 8922 ≤ con.wCursor.toNat
    · rw [if_pos (hlast.mpr hl), if_neg (not_not.mpr hs), if_neg (by omega)]
      exact hsame.mp hs
    · rw [if_neg fun h => hl (hlast.mp h), if_pos hs, if_pos (by omega)]
      exact hjump
  · refine Or.inr ⟨fun h => hs (hsame.mpr h), ?_⟩
    rw [if_pos hs, if_neg hs, ite_self]
    split
    · exact Or.inr hsub
    · exact Or.inl rfl

/-- Scrolling leaves everything but the screen. -/
theorem scrolledDn_keeps (con : Console) :
    (scrolledDn con).wCursor = con.wCursor ∧
      (scrolledDn con).isFull = con.isFull ∧
      (LaidOut i con → LaidOut i (scrolledDn con)) ∧
      (IsFull (scrolledDn con) ↔ IsFull con) := by
  obtain ⟨b, hb⟩ := scrolledDn_eq con
  rw [hb]
  exact ⟨rfl, rfl, id, Iff.rfl⟩

/-- Scrolling up leaves the cursor. -/
theorem scrolledUp_keeps (con : Console) :
    (scrolledUp con).wCursor = con.wCursor ∧
      (scrolledUp con).isFull = con.isFull ∧
      (LaidOut i con → LaidOut i (scrolledUp con)) ∧
      (IsFull (scrolledUp con) ↔ IsFull con) := by
  obtain ⟨b, hb⟩ := scrolledUp_eq con
  rw [hb]
  exact ⟨rfl, rfl, id, Iff.rfl⟩

/-- On a console that was full the loop is the one of `stops_iff`. -/
theorem stops_full (hi : i < NR_CONSOLES) (hlay : LaidOut i con)
    (hon : ¬ IsFull con) (hfull : con.isFull = true) :
    Stops OffScreen scrolledDn con ↔
      Stops (Hidden con.wCursor.toNat)
        (nextStart (W_TTY_CONSOLE_START i) con.wCursor.toNat)
        con.wScreenStart.toNat := by
  let inv : Console → Prop := fun c => LaidOut i c ∧ ¬ IsFull c ∧
    c.isFull = true ∧ c.wCursor = con.wCursor
  refine stops_map (fun c => c.wScreenStart.toNat) inv ?_ ?_ ?_
    ⟨hlay, hon, hfull, rfl⟩
  · rintro c ⟨h1, h2, h3, h4⟩
    obtain ⟨hk1, hk2, hk3, hk4⟩ := scrolledDn_keeps (i := i) c
    exact ⟨hk3 h1, by rwa [hk4], by rw [hk2, h3], by rw [hk1, h4]⟩
  · rintro c ⟨-, -, -, h4⟩
    rw [offScreen_iff, h4]
  · rintro c ⟨h1, h2, h3, h4⟩
    rw [scrolledDn_full hi h1 h2 h3, h4]

/-- The screen of a console that was never full starts with a row. -/
structure Rows (i : Nat) (con : Console) : Prop where
  part : con.isFull = false
  le : W_TTY_CONSOLE_START i ≤ con.wScreenStart.toNat
  lt : con.wScreenStart.toNat < 1073741824
  row : (con.wScreenStart.toNat - W_TTY_CONSOLE_START i) % 80 = 0

/-- Scrolling down keeps the rows. -/
theorem rows_scrolledDn (hi : i < NR_CONSOLES) (hlay : LaidOut i con)
    (hon : ¬ IsFull con) (h : Rows i con) : Rows i (scrolledDn con) := by
  have hc := (onConsole_iff hi hlay).mpr hon
  have hle := start_le hi
  obtain ⟨-, hrow, -⟩ := rowStart_le hc
  have hlt := hc.lt
  have heq := scrolledDn_part hi hlay hc.le (by omega) h.part h.le h.lt
  have h2 := h.le
  have h3 := h.lt
  have h4 := h.row
  have hpart : (scrolledDn con).isFull = false := by
    rw [(scrolledDn_keeps (i := i) con).2.1, h.part]
  split at heq
  · exact ⟨hpart, by omega, by omega, by omega⟩
  · exact ⟨hpart, by omega, by omega, by omega⟩

/-- There the loop ends unless the cursor is before the screen. -/
theorem stops_part (hi : i < NR_CONSOLES) (hlay : LaidOut i con)
    (hon : ¬ IsFull con) (h : Rows i con) :
    Stops OffScreen scrolledDn con ↔ con.wScreenStart ≤ con.wCursor := by
  have hle := start_le hi
  rw [BitVec.le_def]
  by_cases hbelow : con.wScreenStart.toNat ≤ con.wCursor.toNat
  · refine iff_of_true ?_ hbelow
    induction hn : con.wCursor.toNat - con.wScreenStart.toNat
      using Nat.strongRecOn generalizing con with
    | ind n ih =>
        have hc := (onConsole_iff hi hlay).mpr hon
        have hcur := hc.lt
        obtain ⟨-, hrow, hrow'⟩ := rowStart_le hc
        obtain ⟨hk1, hk2, hk3, hk4⟩ := scrolledDn_keeps (i := i) con
        by_cases hoff : OffScreen con
        · rw [stops_round hoff]
          rw [offScreen_iff, Hidden] at hoff
          have heq := scrolledDn_part hi hlay hc.le (by omega) h.part h.le h.lt
          have h3 := h.lt
          have h4 := h.row
          have h5 := h.le
          have hmul := rowStart_mod (W_TTY_CONSOLE_START i) con.wCursor.toNat
          rw [if_pos (by omega)] at heq
          refine ih _ ?_ (hk3 hlay) (by rwa [hk4])
            (rows_scrolledDn hi hlay hon h) ?_ rfl
          · rw [hk1, heq]
            omega
          · rw [hk1, heq]
            omega
        · exact stops_now hoff
  · refine iff_of_false ?_ hbelow
    have hc := (onConsole_iff hi hlay).mpr hon
    have hend := hc.lt
    obtain ⟨-, hrow, -⟩ := rowStart_le hc
    have heq := scrolledDn_part hi hlay hc.le (by omega) h.part h.le h.lt
    rw [if_neg (by omega)] at heq
    obtain ⟨b, hb⟩ := scrolledDn_eq con
    rw [hb] at heq
    have hsame : b = con.wScreenStart := BitVec.eq_of_toNat_eq heq
    have hfix : scrolledDn con = con := by rw [hb, hsame]
    refine not_stops_of_fixed ?_ hfix
    rw [offScreen_iff]
    exact hidden_above (by omega)

end Loop

/-! ## The character -/

section Character

variable {i : Nat} {con : Console} {ch : BitVec 8}

/-- Where a character takes the cursor. -/
def cursorAfter (s p : Nat) (ch : BitVec 8) : Nat :=
  if ch = 0x0A then rowStart s p + 80
  else if ch = 0x08 then if s < p then p - 1 else p
  else p + 1

/-- Where a character leaves the cursor. -/
theorem advance_cursor (hi : i < NR_CONSOLES) (hlay : LaidOut i con)
    (hon : ¬ IsFull con) (ch : BitVec 8) :
    (advance con ch).wCursor.toNat =
      cursorAfter (W_TTY_CONSOLE_START i) con.wCursor.toNat ch := by
  have hle := start_le hi
  have hc := (onConsole_iff hi hlay).mpr hon
  obtain ⟨-, hrow, -⟩ := rowStart_le hc
  obtain ⟨-, hc2, hc3⟩ := hc
  have hstart := start_eq hi hlay
  have hback : con.wCursor > con.wConsoleStart ↔
      W_TTY_CONSOLE_START i < con.wCursor.toNat := by
    rw [gt_iff_lt, BitVec.lt_def, hstart]
  rw [advance, cursorAfter]
  by_cases hnl : ch = 0x0A
  · rw [if_pos hnl, if_pos hnl]
    have hsub : (con.wCursor - con.wConsoleStart).toNat =
        con.wCursor.toNat - W_TTY_CONSOLE_START i := by
      rw [BitVec.toNat_sub, hstart]
      omega
    have hwidth : (BitVec.ofNat 32 SCR_WIDTH).toNat = 80 := rfl
    have hone : (1#32).toNat = 1 := rfl
    show (con.wConsoleStart + BitVec.ofNat 32 SCR_WIDTH *
      ((con.wCursor - con.wConsoleStart) / BitVec.ofNat 32 SCR_WIDTH + 1#32)).toNat
        = _
    rw [BitVec.toNat_add, BitVec.toNat_mul, BitVec.toNat_add,
      BitVec.toNat_udiv, hsub, hwidth, hone, hstart, rowStart]
    omega
  · rw [if_neg hnl, if_neg hnl]
    by_cases hbs : ch = 0x08
    · rw [if_pos hbs, if_pos hbs]
      by_cases hlt : W_TTY_CONSOLE_START i < con.wCursor.toNat
      · rw [if_pos (hback.mpr hlt), if_pos hlt]
        show (con.wCursor - 1#32).toNat = _
        rw [BitVec.toNat_sub]
        show (4294967296 - 1 + con.wCursor.toNat) % 4294967296 = _
        omega
      · rw [if_neg fun h => hlt (hback.mp h), if_neg hlt]
    · rw [if_neg hbs, if_neg hbs]
      show (con.wCursor + 1#32).toNat = _
      rw [BitVec.toNat_add]
      show (con.wCursor.toNat + 1) % 4294967296 = _
      omega

/-- What it leaves alone. -/
theorem advance_keeps (con : Console) (ch : BitVec 8) :
    (advance con ch).wScreenStart = con.wScreenStart ∧
      (advance con ch).wConsoleStart = con.wConsoleStart ∧
      (advance con ch).isFull = con.isFull := by
  unfold advance
  dsimp only
  repeat' split
  all_goals exact ⟨rfl, rfl, rfl⟩

/-- The cursor stays on the console, or just behind it. -/
theorem le_cursorAfter {s p : Nat} (h : OnConsole s p) (ch : BitVec 8) :
    s ≤ cursorAfter s p ch ∧ cursorAfter s p ch < s + 10922 + 80 := by
  obtain ⟨h1, h2, h3⟩ := rowStart_le h
  obtain ⟨hs, hle, hlt⟩ := h
  rw [cursorAfter]
  split
  · omega
  · split
    · split <;> omega
    · omega

/-- When a character fills the console. -/
theorem advance_full (hi : i < NR_CONSOLES) (hlay : LaidOut i con)
    (hon : ¬ IsFull con) (ch : BitVec 8) :
    IsFull (advance con ch) ↔ W_TTY_CONSOLE_START i + 10922 ≤
      cursorAfter (W_TTY_CONSOLE_START i) con.wCursor.toNat ch := by
  have hafter := advance_cursor hi hlay hon ch
  have hc := (onConsole_iff hi hlay).mpr hon
  obtain ⟨hlo, -⟩ := le_cursorAfter hc ch
  have hle := start_le hi
  rw [← not_iff_not, ← onConsole_iff hi (laidOut_advance hlay), hafter]
  constructor
  · intro h
    have := h.lt
    omega
  · intro h
    exact ⟨hle, hlo, by omega⟩

/-- A console that starts again shows its cursor. -/
theorem restarted_shown (hi : i < NR_CONSOLES) (hlay : LaidOut i con) :
    ¬ IsFull (restarted con) ∧ ¬ OffScreen (restarted con) := by
  have hle := start_le hi
  obtain ⟨hlo, hhi⟩ := restarted_cursor hi hlay
  have hsize : SCR_SIZE = 2000 := rfl
  have hlay' : LaidOut i (restarted con) := hlay
  have hstart : (restarted con).wScreenStart.toNat = W_TTY_CONSOLE_START i :=
    start_eq hi hlay
  constructor
  · rw [← onConsole_iff hi hlay']
    exact ⟨hle, hlo, by omega⟩
  · rw [offScreen_iff, Hidden, hstart]
    omega

end Character

/-! ## The consoles of a run -/

section Consoles

variable {i : Nat} {con y : Console} {ch : BitVec 8}

/-- What holds of every console of a run.  Console 0 starts where the boot
    messages end, and is used only if that is on the console. -/
structure Sound (i : Nat) (con : Console) : Prop where
  laid : LaidOut i con
  part : con.isFull = false →
    IsFull con ∨ Rows i con ∧ con.wScreenStart ≤ con.wCursor
  ring : con.isFull = true → ¬ IsFull con ∧
    (W_TTY_CONSOLE_START i = 0 →
      con.wScreenStart.toNat % 16 = 0 ∨ con.wScreenStart.toNat % 16 = 10)

/-- Both kinds of consoles, while the cursor may be off the screen. -/
structure Moving (i : Nat) (con : Console) : Prop where
  laid : LaidOut i con
  on : ¬ IsFull con
  rows : con.isFull = false → Rows i con
  ring : con.isFull = true → W_TTY_CONSOLE_START i = 0 →
    con.wScreenStart.toNat % 16 = 0 ∨ con.wScreenStart.toNat % 16 = 10

/-- Scrolling down keeps the invariant of the loop. -/
theorem moving_scrolledDn (hi : i < NR_CONSOLES) (h : Moving i con) :
    Moving i (scrolledDn con) := by
  obtain ⟨-, hk2, hk3, hk4⟩ := scrolledDn_keeps (i := i) con
  refine ⟨hk3 h.laid, by rw [hk4]; exact h.on, fun hpart => ?_,
    fun hring hzero => ?_⟩
  · rw [hk2] at hpart
    exact rows_scrolledDn hi h.laid h.on (h.rows hpart)
  · rw [hk2] at hring
    have heq := scrolledDn_full hi h.laid h.on hring
    have hclass := h.ring hring hzero
    rw [nextStart, hzero] at heq
    split at heq
    · omega
    · split at heq <;> omega

/-- A cursor that is shown makes a moving console sound. -/
theorem Moving.sound (h : Moving i con) (hshown : ¬ OffScreen con) :
    Sound i con where
  laid := h.laid
  part := fun hpart => by
    rw [OffScreen, not_or] at hshown
    exact Or.inr ⟨h.rows hpart, BitVec.not_lt.mp hshown.2⟩
  ring := fun hring => ⟨h.on, h.ring hring⟩

/-- A sound console may scroll. -/
theorem Sound.moving (h : Sound i con) (hon : ¬ IsFull con) : Moving i con where
  laid := h.laid
  on := hon
  rows := fun hpart => ((h.part hpart).resolve_left hon).1
  ring := fun hring => (h.ring hring).2

/-- The loop leaves a sound console that shows the cursor. -/
theorem sound_ends (hi : i < NR_CONSOLES) (h : Moving i con)
    (hends : Ends OffScreen scrolledDn con y) : Sound i y ∧ ¬ IsFull y ∧
      ¬ OffScreen y := by
  obtain ⟨hy, hshown⟩ := ends_invariant (Moving i)
    (fun _ hx _ => moving_scrolledDn hi hx) hends h
  exact ⟨hy.sound hshown, hy.on, hshown⟩

/-- Scrolling down keeps a console sound. -/
theorem sound_scrolledDn (hi : i < NR_CONSOLES) (h : Sound i con) :
    Sound i (scrolledDn con) := by
  obtain ⟨hk1, hk2, hk3, hk4⟩ := scrolledDn_keeps (i := i) con
  by_cases hoff : IsFull con
  · refine ⟨hk3 h.laid, fun _ => Or.inl (hk4.mpr hoff), fun hring => ?_⟩
    rw [hk2] at hring
    exact absurd hoff (h.ring hring).1
  · have hmoved := moving_scrolledDn hi (h.moving hoff)
    refine ⟨hk3 h.laid, fun hpart => Or.inr ⟨hmoved.rows hpart, ?_⟩,
      fun hring => ⟨hmoved.on, hmoved.ring hring⟩⟩
    rw [hk2] at hpart
    obtain ⟨hrows, hle⟩ := (h.part hpart).resolve_left hoff
    have hc := (onConsole_iff hi h.laid).mpr hoff
    have hend := hc.lt
    have hstart := start_le hi
    obtain ⟨-, hrow, -⟩ := rowStart_le hc
    have heq := scrolledDn_part hi h.laid hc.le (by omega) hpart
      hrows.le hrows.lt
    rw [BitVec.le_def] at hle ⊢
    rw [hk1]
    split at heq <;> omega

/-- So does scrolling up. -/
theorem sound_scrolledUp (hi : i < NR_CONSOLES) (h : Sound i con) :
    Sound i (scrolledUp con) := by
  obtain ⟨hk1, hk2, hk3, hk4⟩ := scrolledUp_keeps (i := i) con
  have hle := start_le hi
  refine ⟨hk3 h.laid, fun hpart => ?_, fun hring => ?_⟩
  · rw [hk2] at hpart
    refine (h.part hpart).imp hk4.mpr fun ⟨hrows, hshown⟩ => ?_
    have h2 := hrows.le
    have h3 := hrows.lt
    have h4 := hrows.row
    have heq := scrolledUp_part hi h.laid hpart h2 h3 h4
    rw [BitVec.le_def] at hshown ⊢
    rw [hk1]
    split at heq
    · exact ⟨⟨by rw [hk2, hpart], by omega, by omega, by omega⟩, by omega⟩
    · exact ⟨⟨by rw [hk2, hpart], by omega, by omega, by omega⟩, by omega⟩
  · rw [hk2] at hring
    obtain ⟨hon, hclass⟩ := h.ring hring
    refine ⟨by rwa [hk4], fun hzero => ?_⟩
    have hold := hclass hzero
    rcases scrolledUp_full hi h.laid hon hring with ⟨-, heq⟩ | ⟨-, heq | heq⟩
    · split at heq <;> omega
    · omega
    · omega

/-- The loop behind a character starts from its invariant. -/
theorem moving_settled (hi : i < NR_CONSOLES) (h : Sound i con)
    (hon : ¬ IsFull con) (ch : BitVec 8) : Moving i (settled con ch) := by
  have hlay : LaidOut i (settled con ch) := laidOut_settled h.laid
  have hmoving := h.moving hon
  obtain ⟨hk1, hk2, hk3⟩ := advance_keeps con ch
  by_cases hfull : IsFull (advance con ch)
  · rw [settled, if_pos hfull] at hlay ⊢
    refine ⟨hlay, (restarted_shown hi (laidOut_advance h.laid)).1,
      fun hpart => ?_, fun _ hzero => ?_⟩
    · cases hpart
    · have hstart := start_eq hi hlay
      rw [hzero] at hstart
      exact Or.inl (by rw [show (restarted (advance con ch)).wScreenStart.toNat = 0
        from hstart])
  · rw [settled, if_neg hfull] at hlay ⊢
    refine ⟨hlay, hfull, fun hpart => ?_, fun hring => ?_⟩
    · rw [hk3] at hpart
      obtain ⟨-, h2, h3, h4⟩ := hmoving.rows hpart
      exact ⟨by rw [hk3, hpart], by rwa [hk1], by rwa [hk1], by rwa [hk1]⟩
    · rw [hk3] at hring
      rw [hk1]
      exact hmoving.ring hring

/-- The loop ends for the next character. -/
def Goes (con : Console) (ch : BitVec 8) : Prop :=
  if con.isFull then
    ¬ Trapped con.wConsoleStart.toNat
      (cursorAfter con.wConsoleStart.toNat con.wCursor.toNat ch)
      con.wScreenStart.toNat
  else ¬ (ch = 0x08 ∧ con.wCursor = con.wScreenStart ∧
    con.wConsoleStart < con.wCursor)

/-- **WHEN THAT LOOP ENDS**. -/
theorem stops_settled (hi : i < NR_CONSOLES) (h : Sound i con)
    (hon : ¬ IsFull con) (ch : BitVec 8) :
    Stops OffScreen scrolledDn (settled con ch) ↔ Goes con ch := by
  have hlay : LaidOut i (advance con ch) := laidOut_advance h.laid
  have hstart := start_eq hi h.laid
  have hcur := advance_cursor hi h.laid hon ch
  have hfulliff := advance_full hi h.laid hon ch
  have hc := (onConsole_iff hi h.laid).mpr hon
  obtain ⟨hrow1, hrow2, hrow3⟩ := rowStart_le hc
  obtain ⟨-, hc2, hc3⟩ := hc
  obtain ⟨hk1, hk2, hk3⟩ := advance_keeps con ch
  have hmoving := moving_settled hi h hon ch
  rw [Goes, hstart]
  by_cases hfull : IsFull (advance con ch)
  · -- the console starts again, with the cursor on the screen
    rw [settled, if_pos hfull]
    refine iff_of_true (stops_now (restarted_shown hi hlay).2) ?_
    rw [hfulliff] at hfull
    split
    · rintro ⟨hzero, -, -, htrap⟩
      rw [hzero] at htrap hfull
      have hrow := Nat.div_mul_le_self
        (cursorAfter 0 con.wCursor.toNat ch - 0) 80
      have hlate : 10880 ≤ rowStart 0 (cursorAfter 0 con.wCursor.toNat ch) := by
        rw [rowStart]
        omega
      omega
    · rintro ⟨rfl, -, hlt⟩
      rw [BitVec.lt_def, hstart] at hlt
      rw [cursorAfter, if_neg (by decide), if_pos rfl, if_pos hlt] at hfull
      omega
  · rw [settled, if_neg hfull] at hmoving ⊢
    cases hring : con.isFull with
    | true =>
        rw [hring] at hk3
        have hlt := (advance con ch).wScreenStart.isLt
        rw [stops_full hi hlay hfull hk3,
          stops_iff ((onConsole_iff hi hlay).mpr hfull) (start_cases hi)
            (hmoving.ring hk3) hlt, hcur, hk1, if_pos rfl]
    | false =>
        rw [hring] at hk3
        obtain ⟨hrows, hshown⟩ := (h.part hring).resolve_left hon
        have hsame : con.wCursor = con.wScreenStart ↔
            con.wCursor.toNat = con.wScreenStart.toNat := BitVec.toNat_inj.symm
        rw [stops_part hi hlay hfull (hmoving.rows hk3), if_neg (by simp),
          BitVec.le_def, hcur, hk1, hsame, BitVec.lt_def, hstart]
        rw [BitVec.le_def] at hshown
        rw [cursorAfter]
        by_cases hnl : ch = 0x0A
        · rw [if_pos hnl, hnl]
          exact iff_of_true (by omega) fun hcon => absurd hcon.1 (by decide)
        · rw [if_neg hnl]
          by_cases hbs : ch = 0x08
          · rw [if_pos hbs]
            split
            · constructor
              · intro hle hstuck
                omega
              · intro hnot
                by_contra hlt
                exact hnot ⟨hbs, by omega, by assumption⟩
            · exact iff_of_true hshown fun hstuck => by omega
          · rw [if_neg hbs]
            exact iff_of_true (by omega) fun hstuck => hbs hstuck.1

end Consoles

/-! ## Printing -/

section Printing

variable {i n fuel : Nat} {s t : State} {con y : Console} {ch : BitVec 8}

/-- One round of it. -/
theorem scrollScreen_dn (s : State) (i : Nat) :
    scrollScreen s i SCROLL_DN =
      .ok (doScreenRefresh (setConsole s i (scrolledDn (s.console i))) i) := rfl

/-- One round of the loop, on the consoles. -/
theorem console_round (s : State) (i : Nat) (con : Console) (pos : Nat) :
    (clearScreenBuf i (doScreenRefresh (setConsole s i con) i) pos
      SCR_WIDTH).console = (setConsole s i con).console := by
  rw [console_clear, console_refresh]

/-- The loop of the code ends where the loop on the console does. -/
theorem scrollLoop_ends (h : scrollLoop i n s = .ok t) :
    ∃ y, Ends OffScreen scrolledDn (s.console i) y ∧
      t.console = (setConsole s i y).console := by
  induction n generalizing s with
  | zero => cases h
  | succ n ih =>
      rw [scrollLoop] at h
      by_cases hoff : OffScreen (s.console i)
      · rw [if_pos hoff, scrollScreen_dn] at h
        obtain ⟨y, hends, hy⟩ := ih h
        have hround := console_round s i (scrolledDn (s.console i))
          ((doScreenRefresh (setConsole s i (scrolledDn (s.console i))) i).console
            i).wCursor.toNat
        rw [hround, setConsole_self] at hends
        exact ⟨y, .round hoff hends, by rw [hy, setConsole_twice _ _ _ _ hround]⟩
      · rw [if_neg hoff, pure_eq_ok] at h
        subst h
        exact ⟨s.console i, .stop hoff, (setConsole_same s i).symm⟩

/-- A loop that ends returns. -/
theorem scrollLoop_ok (h : Ends OffScreen scrolledDn con y)
    (hcon : s.console i = con) : ∃ n t, scrollLoop i n s = .ok t := by
  induction h generalizing s with
  | stop hshown =>
      refine ⟨1, s, ?_⟩
      rw [scrollLoop, hcon, if_neg hshown]
      rfl
  | round hoff _ ih =>
      have hround := console_round s i (scrolledDn (s.console i))
        ((doScreenRefresh (setConsole s i (scrolledDn (s.console i))) i).console
          i).wCursor.toNat
      obtain ⟨n, t, ht⟩ := ih (s := clearScreenBuf i
        (doScreenRefresh (setConsole s i (scrolledDn (s.console i))) i) _ SCR_WIDTH)
        (by rw [hround, setConsole_self, hcon])
      refine ⟨n + 1, t, ?_⟩
      rw [scrollLoop, if_pos (by rw [hcon]; exact hoff), scrollScreen_dn]
      exact ht

/-- The asserts, and the loop. -/
theorem print_ends (h : consolePrintChar fuel s i ch = .ok t) :
    ¬ IsFull (s.console i) ∧
      ∃ y, Ends OffScreen scrolledDn (settled (s.console i) ch) y ∧
        t.console = (setConsole s i y).console := by
  simp only [consolePrintChar, bind_eq_ok, assert_eq_ok, exists_const,
    pure_eq_ok] at h
  obtain ⟨hon, -, u, hu, rfl⟩ := h
  have hwrap := console_wrap_putChar s i ch
  obtain ⟨y, hends, hy⟩ := scrollLoop_ends hu
  rw [hwrap, setConsole_self] at hends
  exact ⟨hon, y, hends,
    by rw [console_refresh, hy, setConsole_twice _ _ _ _ hwrap]⟩

/-- And then the character is printed. -/
theorem print_ok (ch : BitVec 8) (hon : ¬ IsFull (s.console i))
    (hon' : ¬ IsFull (settled (s.console i) ch))
    (h : Stops OffScreen scrolledDn (settled (s.console i) ch)) :
    ∃ fuel t, consolePrintChar fuel s i ch = .ok t := by
  have hself : (wrapConsole (putChar s i ch) i).console i =
      settled (s.console i) ch := by
    rw [console_wrap_putChar, setConsole_self]
  obtain ⟨y, hends⟩ := h
  obtain ⟨n, u, hu⟩ := scrollLoop_ok hends hself
  refine ⟨n, doScreenRefresh u i, ?_⟩
  simp only [consolePrintChar, bind_eq_ok, assert_eq_ok, exists_const,
    pure_eq_ok]
  exact ⟨hon, by rwa [hself], u, hu, rfl⟩

/-- The cursor is on the screen and on the console. -/
def Shown (con : Console) : Prop :=
  con.wScreenStart ≤ con.wCursor ∧
    con.wCursor.toNat < con.wScreenStart.toNat + SCR_SIZE ∧
    con.wConsoleStart ≤ con.wCursor ∧
    con.wCursor.toNat < con.wConsoleStart.toNat + con.wConsoleSize.toNat

/-- A cursor on the screen is shown. -/
theorem shown (hi : i < NR_CONSOLES) (hlay : LaidOut i con)
    (hon : ¬ IsFull con) (hoff : ¬ OffScreen con) : Shown con := by
  obtain ⟨hle, h1, h2⟩ := (onConsole_iff hi hlay).mpr hon
  have hstart := start_eq hi hlay
  have hsize : SCR_SIZE = 2000 := rfl
  have hwords : con.wConsoleSize.toNat = 10922 := by
    rw [size_eq hlay]
    rfl
  rw [offScreen_iff, Hidden] at hoff
  rw [Shown, BitVec.le_def, BitVec.le_def]
  omega

/-- **A CHARACTER ON A SOUND CONSOLE** is printed, with the cursor shown, if
    the cursor was on the console and the loop does not get stuck. -/
theorem printed_iff (hi : i < NR_CONSOLES) (h : Sound i (s.console i))
    (ch : BitVec 8) :
    (∃ fuel t, consolePrintChar fuel s i ch = .ok t ∧ Shown (t.console i)) ↔
      ¬ IsFull (s.console i) ∧ Goes (s.console i) ch := by
  constructor
  · rintro ⟨fuel, t, ht, -⟩
    obtain ⟨hon, y, hends, -⟩ := print_ends ht
    exact ⟨hon, (stops_settled hi h hon ch).mp ⟨y, hends⟩⟩
  · rintro ⟨hon, hgoes⟩
    have hmoving := moving_settled hi h hon ch
    obtain ⟨fuel, t, ht⟩ := print_ok ch hon hmoving.on
      ((stops_settled hi h hon ch).mpr hgoes)
    obtain ⟨-, y, hends, hy⟩ := print_ends ht
    obtain ⟨hsound, hon', hoff⟩ := sound_ends hi hmoving hends
    refine ⟨fuel, t, ht, ?_⟩
    rw [hy, setConsole_self]
    exact shown hi hsound.laid hon' hoff

end Printing

/-! ## Runs -/

section Runs

variable {s t : State} {e : Event}

/-- All consoles. -/
def AllSound (s : State) : Prop :=
  ∀ i < NR_CONSOLES, Sound i (s.console i)

/-- The consoles are sound at boot. -/
theorem sound_boot (h : Boot s) : AllSound s := by
  obtain ⟨⟨dispPos, hcon⟩, -⟩ := h
  intro i hi
  have hlay : LaidOut i (initConsole dispPos i) := ⟨rfl, rfl⟩
  rw [hcon i hi]
  refine ⟨hlay, fun hpart => ?_, fun hring => by cases hring⟩
  by_cases hon : IsFull (initConsole dispPos i)
  · exact Or.inl hon
  · have hle := start_le hi
    have hstart : (initConsole dispPos i).wScreenStart.toNat =
        W_TTY_CONSOLE_START i := start_eq hi hlay
    obtain ⟨-, hcur, -⟩ := (onConsole_iff hi hlay).mpr hon
    refine Or.inr ⟨⟨hpart, by omega, by omega, by omega⟩, ?_⟩
    rw [BitVec.le_def]
    omega

/-- `scroll_screen` on the consoles. -/
theorem scroll_console {i : Nat} {dir : Int} (h : scrollScreen s i dir = .ok t) :
    (dir = SCROLL_DN ∨ dir = SCROLL_UP) ∧
      t.console = (setConsole s i (if dir = SCROLL_UP then
        scrolledUp (s.console i) else scrolledDn (s.console i))).console := by
  simp only [scrollScreen, bind_eq_ok, assert_eq_ok, exists_const,
    pure_eq_ok] at h
  obtain ⟨hdir, rfl⟩ := h
  exact ⟨hdir, console_refresh _ i⟩

/-- **STEP**. -/
theorem sound_step (h : AllSound s) (hstep : Step s e t) : AllSound t := by
  cases hstep with
  | @print fuel _ _ i ch hi hcall =>
      obtain ⟨hon, y, hends, heq⟩ := print_ends hcall
      have hmoving := moving_settled hi (h i hi) hon ch
      exact forall_setConsole h (sound_ends hi hmoving hends).1 heq
  | @scroll _ _ i dir hi hcall =>
      obtain ⟨-, heq⟩ := scroll_console hcall
      refine forall_setConsole h ?_ heq
      split
      · exact sound_scrolledUp hi (h i hi)
      · exact sound_scrolledDn hi (h i hi)
  | switch =>
      intro i hi
      rw [(switchConsole_same s _).1]
      exact h i hi

/-- **RUN**. -/
theorem sound_reach {guard : State → Event → Prop}
    (h : Reach Boot Step guard s) : AllSound s :=
  reach_invariant AllSound (fun _ => sound_boot)
    (fun _ _ _ hs _ hstep => sound_step hs hstep) h

/-- **THE LOOP OF `console_print_char`**: in every state of a run, a character
    is printed and its cursor is on the screen exactly if the cursor was on the
    console and the loop does not get stuck. -/
theorem print_iff (h : Reach Boot Step free s) {i : Nat} (hi : i < NR_CONSOLES)
    (ch : BitVec 8) :
    (∃ fuel t, consolePrintChar fuel s i ch = .ok t ∧ Shown (t.console i)) ↔
      ¬ IsFull (s.console i) ∧ Goes (s.console i) ch :=
  printed_iff hi (sound_reach h i hi) ch

/-- A character on an empty console. -/
theorem print_iff_boot :
    ∃ fuel t, consolePrintChar fuel bootScreen 1 0x41 = .ok t ∧
      Shown (t.console 1) :=
  (print_iff (.start bootScreen_boot) (by decide) 0x41).mpr
    ⟨by decide, fun h => absurd h.1 (by decide)⟩

/-- Console 0, with its cursor at `p` and a screen from `a` on. -/
def shownFrom (a p : Nat) : Console :=
  { initConsole 0 0 with
    wScreenStart := BitVec.ofNat 32 a, wCursor := BitVec.ofNat 32 p }

section ShownFrom

variable {a p : Nat}

theorem shownFrom_cursor (hp : p < 10922) :
    (shownFrom a p).wCursor.toNat = p := by
  rw [shownFrom, BitVec.toNat_ofNat]
  omega

theorem shownFrom_on (hp : p < 10922) : ¬ IsFull (shownFrom a p) := by
  rw [← onConsole_iff (i := 0) (by decide) ⟨rfl, rfl⟩, shownFrom_cursor hp]
  exact ⟨by decide, Nat.zero_le _, (Nat.zero_add _).symm ▸ hp⟩

theorem shownFrom_off (hp : p < 10922) (ha : a < 10922) :
    OffScreen (shownFrom a p) ↔ a + 2000 ≤ p ∨ p < a := by
  have hstart : (shownFrom a p).wScreenStart.toNat = a := by
    rw [shownFrom, BitVec.toNat_ofNat]
    omega
  rw [offScreen_iff, Hidden, shownFrom_cursor hp, hstart]
  omega

theorem settled_backspace (hp : p < 10922) :
    settled (shownFrom a (p + 1)) 0x08 = shownFrom a p := by
  have hback : advance (shownFrom a (p + 1)) 0x08 = shownFrom a p := by
    have hpos : (shownFrom a (p + 1)).wCursor >
        (shownFrom a (p + 1)).wConsoleStart := by
      rw [gt_iff_lt, BitVec.lt_def]
      show 0 < (BitVec.ofNat 32 (p + 1)).toNat
      rw [BitVec.toNat_ofNat]
      omega
    have hone : (shownFrom a (p + 1)).wCursor - 1 = BitVec.ofNat 32 p := by
      show BitVec.ofNat 32 (p + 1) - 1 = _
      rw [BitVec.ofNat_add]
      exact BitVec.add_sub_cancel _ _
    rw [advance, if_neg (by decide), if_pos rfl, if_pos hpos, hone]
    rfl
  rw [settled, hback, if_neg (shownFrom_on hp)]

end ShownFrom

/-- A character whose console is known, on a run. -/
theorem print_settles {i : Nat} {ch : BitVec 8} (con : Console)
    (hi : i < NR_CONSOLES) (h : Reach Boot Step free s)
    (hon : ¬ IsFull (s.console i))
    (hset : settled (s.console i) ch = con) (hon' : ¬ IsFull con)
    (hshown : ¬ OffScreen con) :
    ∃ t, Reach Boot Step free t ∧ t.console i = con := by
  obtain ⟨fuel, t, ht⟩ := print_ok ch hon (by rwa [hset])
    (by rw [hset]; exact stops_now hshown)
  refine ⟨t, .next h trivial (.print hi ht), ?_⟩
  obtain ⟨-, y, hends, heq⟩ := print_ends ht
  rw [hset] at hends
  rw [heq, setConsole_self]
  exact ends_unique hends (.stop hshown)

/-- Backspaces take the cursor to the first cell of the screen. -/
theorem backspaces_back {k : Nat} (hk : k ≤ 1920)
    (h : Reach Boot Step free s) (hcon : s.console 0 = shownFrom 80 (80 + k)) :
    ∃ t, Reach Boot Step free t ∧ t.console 0 = shownFrom 80 80 := by
  induction k generalizing s with
  | zero => exact ⟨s, h, hcon⟩
  | succ k ih =>
      obtain ⟨t, ht, heq⟩ := print_settles (i := 0) (shownFrom 80 (80 + k))
        (by decide) h (by rw [hcon]; exact shownFrom_on (by omega))
        (by rw [hcon]; exact settled_backspace (p := 80 + k) (by omega))
        (shownFrom_on (by omega))
        (by rw [shownFrom_off (by omega) (by decide)]; omega)
      exact ih (by omega) ht heq

set_option maxRecDepth 20000 in
/-- **THE BACKSPACE THAT SPINS**: 25 newlines move the screen down one row, 1920
    backspaces take the cursor to its first cell, and the next one never
    returns. -/
theorem backspace_spins :
    ∃ s, Reach Boot Step free s ∧
      ∀ fuel t, consolePrintChar fuel s 0 0x08 ≠ .ok t := by
  have hrun : (printAll 2 0 bootScreen (List.replicate 25 0x0A)).map
      (fun s => decide (s.console 0 = shownFrom 80 2000)) = .ok true := by
    decide +kernel
  cases hs : printAll 2 0 bootScreen (List.replicate 25 0x0A) with
  | error e =>
      rw [hs] at hrun
      cases hrun
  | ok s =>
      rw [hs] at hrun
      obtain ⟨t, hreach, hcon⟩ := backspaces_back (k := 1920) (Nat.le_refl _)
        (reach_printAll (by decide) (.start bootScreen_boot) hs)
        (of_decide_eq_true (Except.ok.inj hrun))
      refine ⟨t, hreach, fun fuel u hu => ?_⟩
      obtain ⟨hon, y, hends, -⟩ := print_ends hu
      have hgoes := (stops_settled (by decide) (sound_reach hreach 0 (by decide))
        hon 0x08).mp ⟨y, hends⟩
      rw [hcon] at hgoes
      exact hgoes ⟨rfl, rfl, by decide⟩

end Runs

end KosConsole
