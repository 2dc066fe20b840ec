import Kos.ScrollLoopProofs

/-! # What a full console keeps

    When the cursor reaches the end of its console, `console_print_char` copies
    24 rows to the start and goes on in the row below them.

    * the copy takes the rows above the cursor's (`wrapped_rows`);
    * what is already printed in the cursor's own row is not copied, so a wrap
      by a newline keeps the text, and one by another character does so only if
      the same text was there before (`wrap_iff`). -/

namespace KosConsole

open KosKernel GuardedRun WhileLoop

section Copies

variable {i : Nat} {s : State} {w : Nat}

theorem video_setConsole (s : State) (i : Nat) (con : Console) :
    (setConsole s i con).video = s.video := rfl

theorem video_clear_out {pos len : Nat} (h : w < pos ∨ pos + len ≤ w) :
    (clearScreenBuf i s pos len).video w = s.video w := by
  induction len generalizing s pos with
  | zero => rfl
  | succ n ih =>
      rw [clearScreenBuf, ih (by omega)]
      exact if_neg (by omega)

theorem video_move_out {dst src size : Nat} (h : w < dst ∨ dst + size ≤ w) :
    (moveScreenBuf i s dst src size).video w = s.video w := by
  induction size generalizing s dst src with
  | zero => rfl
  | succ n ih =>
      rw [moveScreenBuf, ih (by omega)]
      exact if_neg (by omega)

/-- A copy to lower addresses reads what was there before. -/
theorem video_move {dst src size j : Nat} (hj : j < size) (h : dst ≤ src) :
    (moveScreenBuf i s dst src size).video (dst + j) = s.video (src + j) := by
  induction size generalizing s dst src j with
  | zero => exact absurd hj (Nat.not_lt_zero _)
  | succ n ih =>
      rw [moveScreenBuf]
      cases j with
      | zero =>
          rw [video_move_out (by omega)]
          exact if_pos rfl
      | succ j =>
          rw [show dst + (j + 1) = dst + 1 + j by omega,
            ih (by omega) (by omega), show src + 1 + j = src + (j + 1) by omega]
          exact if_neg (by omega)

end Copies

/-! ## The wrap -/

section Wrap

variable {i fuel : Nat} {s t : State} {ch : BitVec 8}

/-- How far behind the console's start the character takes the cursor. -/
def overflow (s : State) (i : Nat) (ch : BitVec 8) : Nat :=
  ((putChar s i ch).console i).wCursor.toNat -
    (s.console i).wConsoleStart.toNat

/-- The rows above the cursor's and the printed part of its own are where they
    belong after the wrap, and the cursor is in the same column. -/
structure TextKept (s : State) (i : Nat) (ch : BitVec 8) (t : State) : Prop where
  rows : ∀ j < SCR_SIZE - SCR_WIDTH,
    t.video ((s.console i).wConsoleStart.toNat + j) =
      (putChar s i ch).video ((s.console i).wConsoleStart.toNat +
        (overflow s i ch / SCR_WIDTH - (SCR_SIZE / SCR_WIDTH - 1)) * SCR_WIDTH +
          j)
  own : ∀ j < overflow s i ch % SCR_WIDTH,
    t.video ((s.console i).wConsoleStart.toNat + (SCR_SIZE - SCR_WIDTH) + j) =
      (putChar s i ch).video ((s.console i).wConsoleStart.toNat +
        overflow s i ch / SCR_WIDTH * SCR_WIDTH + j)
  column : (t.console i).wCursor.toNat =
    (s.console i).wConsoleStart.toNat + (SCR_SIZE - SCR_WIDTH) +
      overflow s i ch % SCR_WIDTH

/-- Row 24 holds already what the last row holds with the character. -/
def SameRow (s : State) (i : Nat) (ch : BitVec 8) : Prop :=
  ∀ j < 42, s.video ((s.console i).wConsoleStart.toNat + 1920 + j) =
    if j = 41 then cellOf ch
    else s.video ((s.console i).wConsoleStart.toNat + 10880 + j)

/-- The console starts again in two ways: by a newline in the last row, and by
    a character in the last cell. -/
theorem full_cases (hi : i < NR_CONSOLES) (hlay : LaidOut i (s.console i))
    (hon : ¬ IsFull (s.console i)) (hfull : IsFull (advance (s.console i) ch)) :
    (ch = 0x0A ∧ (advance (s.console i) ch).wCursor.toNat =
        W_TTY_CONSOLE_START i + 10960) ∨
      (ch ≠ 0x0A ∧ ch ≠ 0x08 ∧ (s.console i).wCursor.toNat =
          W_TTY_CONSOLE_START i + 10921 ∧
        (advance (s.console i) ch).wCursor.toNat =
          W_TTY_CONSOLE_START i + 10922) := by
  have hc := (onConsole_iff hi hlay).mpr hon
  obtain ⟨hrow1, hrow2, -⟩ := rowStart_le hc
  have hmul := rowStart_mod (W_TTY_CONSOLE_START i)
    (s.console i).wCursor.toNat
  have hlt := hc.lt
  rw [advance_full hi hlay hon] at hfull
  rw [advance_cursor hi hlay hon]
  rw [cursorAfter] at hfull ⊢
  by_cases hnl : ch = 0x0A
  · rw [if_pos hnl] at hfull ⊢
    exact Or.inl ⟨hnl, by omega⟩
  · rw [if_neg hnl] at hfull ⊢
    by_cases hbs : ch = 0x08
    · rw [if_pos hbs] at hfull
      split at hfull <;> omega
    · rw [if_neg hbs] at hfull ⊢
      exact Or.inr ⟨hnl, hbs, by omega, by omega⟩

theorem overflow_eq {k : Nat} (hi : i < NR_CONSOLES)
    (hlay : LaidOut i (s.console i))
    (hk : (advance (s.console i) ch).wCursor.toNat = W_TTY_CONSOLE_START i + k) :
    overflow s i ch = k := by
  rw [overflow, console_putChar, setConsole_self, hk, start_eq hi hlay,
    Nat.add_sub_cancel_left]

/-- Where the rows are copied from. -/
theorem restart_source {con : Console} {k : Nat} (hi : i < NR_CONSOLES)
    (hlay : LaidOut i con) (hk : con.wCursor.toNat = W_TTY_CONSOLE_START i + k)
    (hlo : 10922 ≤ k) (hhi : k ≤ 10960) :
    (con.wConsoleStart + ((con.wCursor - con.wConsoleStart) /
        BitVec.ofNat 32 SCR_WIDTH + 1) * BitVec.ofNat 32 SCR_WIDTH -
          BitVec.ofNat 32 SCR_SIZE).toNat =
      W_TTY_CONSOLE_START i + (k / 80 - 24) * 80 ∧
    (restarted con).wCursor.toNat = W_TTY_CONSOLE_START i + 1920 + k % 80 := by
  have hle := start_le hi
  have hstart := start_eq hi hlay
  have hsub : (con.wCursor - con.wConsoleStart).toNat = k := by
    rw [BitVec.toNat_sub, hstart, hk]
    omega
  have hwidth : (BitVec.ofNat 32 SCR_WIDTH).toNat = 80 := rfl
  have hsize : (BitVec.ofNat 32 SCR_SIZE).toNat = 2000 := rfl
  have hlast : (BitVec.ofNat 32 SCR_SIZE - BitVec.ofNat 32 SCR_WIDTH).toNat =
      1920 := rfl
  have hone : (1 : BitVec 32).toNat = 1 := rfl
  constructor
  · rw [BitVec.toNat_sub, BitVec.toNat_add, BitVec.toNat_mul, BitVec.toNat_add,
      BitVec.toNat_udiv, hsub, hwidth, hsize, hone, hstart]
    omega
  · rw [restarted]
    dsimp only
    rw [BitVec.toNat_add, BitVec.toNat_add, BitVec.toNat_umod, hsub, hwidth,
      hlast, hstart]
    omega

/-- **A WRAP**: the rows are copied, the cursor's is not, and there is nothing
    to scroll. -/
theorem wrapped {k : Nat} (hi : i < NR_CONSOLES)
    (hlay : LaidOut i (s.console i))
    (hfull : IsFull (advance (s.console i) ch))
    (hk : (advance (s.console i) ch).wCursor.toNat = W_TTY_CONSOLE_START i + k)
    (hlo : 10922 ≤ k) (hhi : k ≤ 10960)
    (h : consolePrintChar fuel s i ch = .ok t) :
    (∀ j < 1920, t.video (W_TTY_CONSOLE_START i + j) =
        (putChar s i ch).video
          (W_TTY_CONSOLE_START i + (k / 80 - 24) * 80 + j)) ∧
      (∀ j < k % 80, t.video (W_TTY_CONSOLE_START i + 1920 + j) =
        (putChar s i ch).video (W_TTY_CONSOLE_START i + 1920 + j)) ∧
      (t.console i).wCursor.toNat = W_TTY_CONSOLE_START i + 1920 + k % 80 := by
  have hlay' : LaidOut i (advance (s.console i) ch) := laidOut_advance hlay
  have hstart : (advance (s.console i) ch).wConsoleStart.toNat =
      W_TTY_CONSOLE_START i := start_eq hi hlay'
  obtain ⟨hsource, hcursor⟩ := restart_source hi hlay' hk hlo hhi
  have hput : (putChar s i ch).console i = advance (s.console i) ch := by
    rw [console_putChar, setConsole_self]
  have hwrap : wrapConsole (putChar s i ch) i = restart (putChar s i ch) i := by
    rw [wrapConsole, hput, if_pos hfull]
  have hcon : (restart (putChar s i ch) i).console i =
      restarted (advance (s.console i) ch) := by
    rw [restart, console_clear, setConsole_self, hput]
  have hshown : ¬ OffScreen ((restart (putChar s i ch) i).console i) := by
    rw [hcon]
    exact (restarted_shown hi hlay').2
  -- the loop has nothing to do
  simp only [consolePrintChar, bind_eq_ok, assert_eq_ok, exists_const,
    pure_eq_ok, hwrap] at h
  obtain ⟨-, -, u, hu, rfl⟩ := h
  have hsame : u = restart (putChar s i ch) i := by
    cases fuel with
    | zero => cases hu
    | succ n =>
        rw [scrollLoop, if_neg hshown, pure_eq_ok] at hu
        exact hu.symm
  have hvideo : ∀ w, w < W_TTY_CONSOLE_START i + 1920 + k % 80 →
      (restart (putChar s i ch) i).video w =
        (moveScreenBuf i (putChar s i ch) (W_TTY_CONSOLE_START i)
          (W_TTY_CONSOLE_START i + (k / 80 - 24) * 80)
          (SCR_SIZE - SCR_WIDTH)).video w := by
    intro w hw
    rw [restart, hput, video_clear_out (Or.inl (by rw [hcursor]; exact hw)),
      video_setConsole, hsource, hstart]
  have hsize : SCR_SIZE - SCR_WIDTH = 1920 := rfl
  rw [video_refresh, console_refresh, hsame, hcon]
  refine ⟨fun j hj => ?_, fun j hj => ?_, hcursor⟩
  · rw [hvideo _ (by omega), hsize]
    exact video_move hj (by omega)
  · rw [hvideo _ (by omega), hsize]
    exact video_move_out (Or.inr (by omega))

theorem video_putChar (hnl : ch ≠ 0x0A) (hbs : ch ≠ 0x08) (w : Nat) :
    (putChar s i ch).video w =
      if w = (s.console i).wCursor.toNat then cellOf ch else s.video w := by
  rw [putChar, video_setConsole, putCell, cellFor, if_neg hnl, if_neg hbs]
  dsimp only
  rw [if_neg hbs]
  rfl

/-- What the cursor's row holds afterwards is what row 24 held before. -/
theorem own_iff (hi : i < NR_CONSOLES) (hlay : LaidOut i (s.console i))
    (hnl : ch ≠ 0x0A) (hbs : ch ≠ 0x08)
    (hcur : (s.console i).wCursor.toNat = W_TTY_CONSOLE_START i + 10921) :
    (∀ j < 42, (putChar s i ch).video (W_TTY_CONSOLE_START i + 1920 + j) =
      (putChar s i ch).video (W_TTY_CONSOLE_START i + 10880 + j)) ↔
      SameRow s i ch := by
  have hcells : ∀ j < 42,
      (putChar s i ch).video (W_TTY_CONSOLE_START i + 1920 + j) =
          s.video (W_TTY_CONSOLE_START i + 1920 + j) ∧
        (putChar s i ch).video (W_TTY_CONSOLE_START i + 10880 + j) =
          if j = 41 then cellOf ch
          else s.video (W_TTY_CONSOLE_START i + 10880 + j) := by
    intro j hj
    rw [video_putChar hnl hbs, video_putChar hnl hbs, hcur, if_neg (by omega)]
    refine ⟨rfl, ?_⟩
    by_cases hlast : j = 41
    · rw [if_pos (by omega), if_pos hlast]
    · rw [if_neg (by omega), if_neg hlast]
  rw [SameRow, start_eq hi hlay]
  constructor
  · intro h j hj
    rw [← (hcells j hj).1, h j hj, (hcells j hj).2]
  · intro h j hj
    rw [(hcells j hj).1, h j hj, (hcells j hj).2]

/-- On any sound console. -/
theorem textKept_iff (hi : i < NR_CONSOLES) (hlay : LaidOut i (s.console i))
    (hon : ¬ IsFull (s.console i)) (hfull : IsFull (advance (s.console i) ch))
    (h : consolePrintChar fuel s i ch = .ok t) :
    TextKept s i ch t ↔ ch = 0x0A ∨ SameRow s i ch := by
  have hstart := start_eq hi hlay
  have hrows : SCR_SIZE - SCR_WIDTH = 1920 := rfl
  have hscreen : SCR_SIZE / SCR_WIDTH - 1 = 24 := rfl
  have hwidth : SCR_WIDTH = 80 := rfl
  rcases full_cases hi hlay hon hfull with ⟨hnl, hk⟩ | ⟨hnl, hbs, hcur, hk⟩
  · obtain ⟨h1, -, h3⟩ :=
      wrapped hi hlay hfull hk (by decide) (by decide) h
    have hover := overflow_eq hi hlay hk
    refine iff_of_true ⟨?_, ?_, ?_⟩ (Or.inl hnl)
    · rw [hstart, hover]
      exact h1
    · rw [hover]
      exact fun j hj => absurd hj (Nat.not_lt_zero j)
    · rw [hstart, hover]
      exact h3
  · obtain ⟨h1, h2, h3⟩ :=
      wrapped hi hlay hfull hk (by decide) (by decide) h
    have hover := overflow_eq hi hlay hk
    have hown := own_iff hi hlay hnl hbs hcur
    constructor
    · intro hkept
      refine Or.inr (hown.mp fun j hj => ?_)
      have hcell := hkept.own j (by rw [hover]; exact hj)
      rw [hstart, hover] at hcell
      rw [← h2 j hj]
      exact hcell
    · rintro (hyes | hsame)
      · exact absurd hyes hnl
      · refine ⟨?_, ?_, ?_⟩
        · rw [hstart, hover]
          exact h1
        · rw [hstart, hover]
          intro j hj
          rw [hrows, h2 j hj]
          exact hown.mpr hsame j hj
        · rw [hstart, hover]
          exact h3

/-- **WRAPPING A FULL CONSOLE**: in every state of a run, a character that takes
    the cursor to the end of its console is printed, and it keeps the text
    exactly if it is a newline or the row it goes on in has the same text
    already. -/
theorem wrap_iff (h : Reach Boot Step free s) (hi : i < NR_CONSOLES)
    (ch : BitVec 8) (hon : ¬ IsFull (s.console i))
    (hfull : IsFull (advance (s.console i) ch)) :
    (∃ fuel t, consolePrintChar fuel s i ch = .ok t) ∧
      ∀ fuel t, consolePrintChar fuel s i ch = .ok t →
        (TextKept s i ch t ↔ ch = 0x0A ∨ SameRow s i ch) := by
  have hlay := (sound_reach h i hi).laid
  have hlay' : LaidOut i (advance (s.console i) ch) := laidOut_advance hlay
  obtain ⟨hon', hshown⟩ := restarted_shown hi hlay'
  constructor
  · refine print_ok ch hon ?_ ?_
    · rwa [settled, if_pos hfull]
    · rw [settled, if_pos hfull]
      exact stops_now hshown
  · intro fuel t ht
    exact textKept_iff hi hlay hon hfull ht

set_option maxRecDepth 40000 in
/-- 136 newlines and 41 letters on console 0: one cell is left. -/
theorem one_cell_left :
    ∃ s, Reach Boot Step free s ∧
      s.console 0 =
        { initConsole 0 0 with wScreenStart := 8960, wCursor := 10921 } ∧
      s.video 1961 = 0 := by
  have hrun : (printAll 2 0 bootScreen
      (List.replicate 136 0x0A ++ List.replicate 41 0x41)).map
        (fun s => decide (s.console 0 =
          { initConsole 0 0 with wScreenStart := 8960, wCursor := 10921 } ∧
            s.video 1961 = 0)) = .ok true := by
    decide +kernel
  cases hs : printAll 2 0 bootScreen
      (List.replicate 136 0x0A ++ List.replicate 41 0x41) with
  | error e =>
      rw [hs] at hrun
      cases hrun
  | ok s =>
      rw [hs] at hrun
      exact ⟨s, reach_printAll (by decide) (.start bootScreen_boot) hs,
        of_decide_eq_true (Except.ok.inj hrun)⟩

/-- A newline there keeps the text. -/
theorem wrap_iff_newline :
    ∃ s fuel t, Reach Boot Step free s ∧
      consolePrintChar fuel s 0 0x0A = .ok t ∧ TextKept s 0 0x0A t := by
  obtain ⟨s, hreach, hcon, -⟩ := one_cell_left
  obtain ⟨⟨fuel, t, ht⟩, hkept⟩ := wrap_iff hreach
    (show 0 < NR_CONSOLES by decide) 0x0A (by rw [hcon]; decide)
    (by rw [hcon]; decide)
  exact ⟨s, fuel, t, hreach, ht, (hkept fuel t ht).mpr (Or.inl rfl)⟩

/-- **A LOST ROW**: a letter there wraps, and the 42 letters of the last row are
    gone. -/
theorem wrap_loses_row :
    ∃ s fuel t, Reach Boot Step free s ∧
      consolePrintChar fuel s 0 0x41 = .ok t ∧ ¬ TextKept s 0 0x41 t := by
  obtain ⟨s, hreach, hcon, hcell⟩ := one_cell_left
  have hi : 0 < NR_CONSOLES := by decide
  have hlay := (sound_reach hreach 0 hi).laid
  have hon : ¬ IsFull (s.console 0) := by
    rw [hcon]
    decide
  have hfull : IsFull (advance (s.console 0) 0x41) := by
    rw [hcon]
    decide
  have hlay' : LaidOut 0 (advance (s.console 0) 0x41) := laidOut_advance hlay
  obtain ⟨hon', hshown⟩ := restarted_shown hi hlay'
  obtain ⟨fuel, t, ht⟩ := print_ok 0x41 hon
    (by rwa [settled, if_pos hfull])
    (by rw [settled, if_pos hfull]; exact stops_now hshown)
  refine ⟨s, fuel, t, hreach, ht, ?_⟩
  rw [textKept_iff hi hlay hon hfull ht]
  rintro (hnl | hsame)
  · exact absurd hnl (by decide)
  · have hlast := hsame 41 (by decide)
    rw [hcon, if_pos rfl] at hlast
    have hword : s.video 1961 = cellOf 0x41 := hlast
    rw [hcell] at hword
    exact absurd hword (by decide)

end Wrap

end KosConsole
