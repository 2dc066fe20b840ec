import Kos.ScrollLoopProofs

/-! # Where the screen may be

    The screen of a console should start with one of its rows and end on the
    console, and `scroll_screen` moves it by whole rows.  But the size of a
    console is no whole number of rows, so the ring of a console that has been
    full does not close, and the last row is cut off.

    * a screen behind the cursor goes round the addresses and comes back out of
      step with the rows (`astray_end`);
    * in a run whose steps avoid that and the last row the screen stays on the
      console, and every other step takes it off (`inside_iff`). -/

namespace KosConsole

open KosKernel GuardedRun WhileLoop

/-! ## Screens behind the cursor -/

section Starts

variable {s p a : Nat}

/-- The screen is behind the cursor, or has come round to it out of step. -/
def Astray (s p a : Nat) : Prop :=
  a < 4294967296 ∧
    (p < a ∧ (a - s) % 80 = 0 ∨
      1920 ≤ s ∧ a ≤ p ∧ (a + 10976 - s) % 80 = 0 ∨
      s = 0 ∧ (a % 80 = 64 ∨ a % 80 = 48 ∨ a % 80 = 32 ∨
        a % 80 = 16 ∧ (a ≤ p ∨ rowStart 0 p < 1920 ∧
          a + 1920 ≤ 4294967296 + rowStart 0 p)))

theorem astray_round (h : OnConsole s p) (hs : s = 0 ∨ 1920 ≤ s)
    (ha : Astray s p a) (hhid : Hidden p a) : Astray s p (nextStart s p a) := by
  obtain ⟨hrow1, hrow2, hrow3⟩ := rowStart_le h
  have hle := h.start_le
  have hmul := rowStart_mod s p
  obtain ⟨hlt, hwhere⟩ := ha
  by_cases hbelow : a ≤ p
  · -- before the cursor the screen keeps its step
    obtain ⟨hfar, hnext⟩ := nextStart_below h hbelow hhid
    have hend := h.lt
    rw [hnext]
    refine ⟨by omega, ?_⟩
    rcases hwhere with hfirst | hlate | ⟨rfl, hzero⟩
    · omega
    · exact Or.inr (Or.inl (by omega))
    · exact Or.inr (Or.inr ⟨rfl, by omega⟩)
  · have hhigh : p < a := by omega
    by_cases hmeets : a + 1920 = 4294967296 + rowStart s p
    · -- the cursor's row from the wrong side: the screen stays
      rw [nextStart, if_pos (by omega)]
      exact ⟨hlt, hwhere⟩
    by_cases htop : a + 80 < 4294967296
    · have hnext : nextStart s p a = a + 80 := by
        rw [nextStart_above h hhigh hmeets (by omega) hlt, Nat.mod_eq_of_lt htop]
      rw [hnext]
      refine ⟨htop, ?_⟩
      rcases hwhere with hfirst | hlate | ⟨rfl, hzero⟩
      · exact Or.inl (by omega)
      · omega
      · refine Or.inr (Or.inr ⟨rfl, ?_⟩)
        rw [Nat.add_mod_right]
        omega
    · -- round the addresses, 16 words short of a row
      have hnext : nextStart s p a = a + 80 - 4294967296 := by
        rw [nextStart_above h hhigh hmeets (by omega) hlt]
        omega
      rw [hnext]
      refine ⟨by omega, ?_⟩
      rcases hs with rfl | hs
      · refine Or.inr (Or.inr ⟨rfl, ?_⟩)
        rcases hwhere with ⟨-, hfirst⟩ | hlate | ⟨-, hzero⟩
        · omega
        · omega
        · rcases hzero with h64 | h48 | h32 | ⟨h16, hrow⟩
          · omega
          · omega
          · have hthere : a + 80 - 4294967296 = 16 := by omega
            rw [hthere]
            omega
          · omega
      · refine Or.inr (Or.inl ?_)
        rcases hwhere with ⟨-, hfirst⟩ | hlate | ⟨rfl, -⟩
        · omega
        · omega
        · omega

/-- A screen that has come round does not start with a row. -/
theorem astray_end (ha : Astray s p a) (hle : a ≤ p) :
    ¬ (s ≤ a ∧ (a - s) % 80 = 0) := by
  obtain ⟨-, hwhere⟩ := ha
  rintro ⟨hs, hrow⟩
  rcases hwhere with hfirst | hlate | ⟨rfl, hzero⟩
  · omega
  · omega
  · omega

end Starts

/-! ## The screen and the console -/

section Consoles

variable {i : Nat} {con y : Console} {ch : BitVec 8}

/-- The screen starts with a row of the console and ends on the console. -/
def Inside (con : Console) : Prop :=
  con.wConsoleStart ≤ con.wScreenStart ∧
    con.wScreenStart.toNat + SCR_SIZE ≤
      con.wConsoleStart.toNat + con.wConsoleSize.toNat ∧
    (con.wScreenStart.toNat - con.wConsoleStart.toNat) % SCR_WIDTH = 0

/-- The rows a screen may start with; 8880 is the last one. -/
structure InRows (s a : Nat) : Prop where
  le : s ≤ a
  le_last : a ≤ s + 8880
  row : (a - s) % 80 = 0

theorem inside_rows (hi : i < NR_CONSOLES) (hlay : LaidOut i con) :
    Inside con ↔ InRows (W_TTY_CONSOLE_START i) con.wScreenStart.toNat := by
  have hsize : SCR_SIZE = 2000 := rfl
  have hwidth : SCR_WIDTH = 80 := rfl
  have hwords : con.wConsoleSize.toNat = 10922 := by
    rw [size_eq hlay]
    rfl
  rw [Inside, BitVec.le_def, start_eq hi hlay, hsize, hwidth, hwords]
  constructor
  · rintro ⟨h1, h2, h3⟩
    exact ⟨h1, by omega, h3⟩
  · rintro ⟨h1, h2, h3⟩
    exact ⟨h1, by omega, h3⟩

/-- The loop keeps the screen on the console while the cursor is above the last
    row, and not before the screen if the console was full. -/
theorem inside_ends (hi : i < NR_CONSOLES) (h : Moving i con) (hin : Inside con)
    (hlow : con.wCursor.toNat < W_TTY_CONSOLE_START i + 10880)
    (hnot : con.isFull = true → con.wScreenStart.toNat ≤ con.wCursor.toNat)
    (hends : Ends OffScreen scrolledDn con y) : Inside y := by
  let inv : Console → Prop := fun c => Moving i c ∧ Inside c ∧
    c.wCursor = con.wCursor ∧
      (c.isFull = true → c.wScreenStart.toNat ≤ con.wCursor.toNat)
  refine (ends_invariant inv ?_ hends ⟨h, hin, rfl, hnot⟩).1.2.1
  rintro c ⟨hm, hc, hcur, hbefore⟩ hoff
  obtain ⟨hk1, hk2, hk3, -⟩ := scrolledDn_keeps (i := i) c
  have hon := (onConsole_iff hi hm.laid).mpr hm.on
  have hstart := start_le hi
  obtain ⟨hrow1, hrow2, -⟩ := rowStart_le hon
  have hmul := rowStart_mod (W_TTY_CONSOLE_START i) c.wCursor.toNat
  rw [inside_rows hi hm.laid] at hc
  obtain ⟨hc1, hc2, hc3⟩ := hc
  refine ⟨moving_scrolledDn hi hm, ?_, by rw [hk1, hcur], fun hring => ?_⟩
  · rw [inside_rows hi (hk3 hm.laid)]
    cases hfull : c.isFull with
    | true =>
        have hb := hbefore hfull
        rw [← hcur] at hb hlow
        obtain ⟨hfar, hnext⟩ :=
          nextStart_below hon hb ((offScreen_iff c).mp hoff)
        rw [scrolledDn_full hi hm.laid hm.on hfull, hnext]
        exact ⟨by omega, by omega, by omega⟩
    | false =>
        rw [← hcur] at hlow
        rw [scrolledDn_part hi hm.laid hon.le (by omega) hfull hc1 (by omega)]
        split
        · exact ⟨by omega, by omega, by omega⟩
        · exact ⟨hc1, hc2, hc3⟩
  · rw [hk2] at hring
    have hb := hbefore hring
    rw [← hcur] at hb ⊢
    obtain ⟨hfar, hnext⟩ := nextStart_below hon hb ((offScreen_iff c).mp hoff)
    rw [scrolledDn_full hi hm.laid hm.on hring, hnext]
    omega

/-- A screen that was behind the cursor of a full console comes back out of
    step. -/
theorem astray_ends (hi : i < NR_CONSOLES) (h : Moving i con)
    (hring : con.isFull = true) (hin : Inside con)
    (hbehind : con.wCursor.toNat < con.wScreenStart.toNat)
    (hends : Ends OffScreen scrolledDn con y) : ¬ Inside y := by
  let inv : Console → Prop := fun c => Moving i c ∧ c.isFull = true ∧
    c.wCursor = con.wCursor ∧
      Astray (W_TTY_CONSOLE_START i) con.wCursor.toNat c.wScreenStart.toNat
  rw [inside_rows hi h.laid] at hin
  obtain ⟨⟨hm, -, hcur, hastray⟩, hoff⟩ := ends_invariant inv (by
    rintro c ⟨hm, hc, hcur, hastray⟩ hoff
    obtain ⟨hk1, hk2, -, -⟩ := scrolledDn_keeps (i := i) c
    have hon := (onConsole_iff hi hm.laid).mpr hm.on
    refine ⟨moving_scrolledDn hi hm, by rw [hk2, hc], by rw [hk1, hcur], ?_⟩
    rw [offScreen_iff, hcur] at hoff
    rw [hcur] at hon
    rw [scrolledDn_full hi hm.laid hm.on hc, hcur]
    exact astray_round hon (start_cases hi) hastray hoff) hends
    ⟨h, hring, rfl, con.wScreenStart.isLt, Or.inl ⟨hbehind, hin.row⟩⟩
  rw [offScreen_iff, hcur, Hidden, not_or] at hoff
  rw [inside_rows hi hm.laid]
  exact fun hrows => astray_end hastray (by omega) ⟨hrows.le, hrows.row⟩

/-- The condition on a character: it makes the console start again, or leaves
    the cursor above the last row and, if the console was full, not before the
    screen. -/
def KeepsPrint (con : Console) (ch : BitVec 8) : Prop :=
  let start := con.wConsoleStart.toNat
  let after := cursorAfter start con.wCursor.toNat ch
  start + 10922 ≤ after ∨
    after < start + 10880 ∧ (con.isFull = true → con.wScreenStart.toNat ≤ after)

/-- The condition on `SCROLL_UP`: not from the first screen of a console that
    was full, unless the cursor is on the last screen. -/
def KeepsUp (con : Console) : Prop :=
  ¬ (con.isFull = true ∧ con.wScreenStart = con.wConsoleStart ∧
    con.wCursor.toNat < con.wConsoleStart.toNat + 8922)

/-- The condition on `SCROLL_DN`: not from the last screen, unless it stays
    there. -/
def KeepsDn (con : Console) : Prop :=
  let start := con.wConsoleStart.toNat
  ¬ (con.wScreenStart.toNat = start + 8880 ∧
    if con.isFull then rowStart start con.wCursor.toNat ≠ start + 10800
    else start + 10880 ≤ con.wCursor.toNat)

theorem inside_settled (hi : i < NR_CONSOLES) (h : Sound i con)
    (hon : ¬ IsFull con) (hin : Inside con)
    (hends : Ends OffScreen scrolledDn (settled con ch) y) :
    Inside y ↔ KeepsPrint con ch := by
  have hlay : LaidOut i (advance con ch) := laidOut_advance h.laid
  have hcur := advance_cursor hi h.laid hon ch
  have hfull := advance_full hi h.laid hon ch
  have hmoving := moving_settled hi h hon ch
  obtain ⟨hk1, hk2, hk3⟩ := advance_keeps con ch
  obtain ⟨hsound, hony, hoff⟩ := sound_ends hi hmoving hends
  dsimp only [KeepsPrint]
  rw [start_eq hi h.laid]
  by_cases hagain : IsFull (advance con ch)
  · have hshown := (restarted_shown hi hlay).2
    rw [settled, if_pos hagain] at hends
    refine iff_of_true ?_ (Or.inl (hfull.mp hagain))
    cases hends with
    | stop _ =>
        have hstart : (restarted (advance con ch)).wScreenStart.toNat =
            W_TTY_CONSOLE_START i := start_eq hi hlay
        rw [inside_rows hi hsound.laid, hstart]
        exact ⟨Nat.le_refl _, by omega, by omega⟩
    | round hhid _ => exact absurd hhid hshown
  · rw [settled, if_neg hagain] at hmoving hends
    have hin' : Inside (advance con ch) := by
      rw [inside_rows hi h.laid] at hin
      rwa [inside_rows hi hlay, hk1]
    rw [hfull] at hagain
    constructor
    · intro hy
      refine Or.inr ⟨?_, fun hring => ?_⟩
      · -- the cursor is shown, and the last screen ends above the last row
        obtain ⟨b, hb⟩ : ∃ b, y = { advance con ch with wScreenStart := b } :=
          (ends_invariant (fun c => ∃ b, c = { advance con ch with
            wScreenStart := b }) (by
              rintro c ⟨b, rfl⟩ -
              obtain ⟨b', hb'⟩ := scrolledDn_eq
                { advance con ch with wScreenStart := b }
              exact ⟨b', hb'⟩) hends ⟨_, rfl⟩).1
        have hyc : y.wCursor = (advance con ch).wCursor := by rw [hb]
        rw [inside_rows hi hsound.laid] at hy
        have hlast := hy.le_last
        have hle := start_le hi
        rw [offScreen_iff, Hidden, hyc, hcur] at hoff
        omega
      · by_contra hbehind
        refine astray_ends hi hmoving (by rw [hk3, hring]) hin' ?_ hends hy
        rw [hcur, hk1]
        omega
    · rintro (hagain' | ⟨hlow, hbefore⟩)
      · omega
      · refine inside_ends hi hmoving hin' (by omega) (fun hring => ?_) hends
        rw [hk3] at hring
        rw [hcur, hk1]
        exact hbefore hring

theorem inside_up (hi : i < NR_CONSOLES) (h : Sound i con) (hin : Inside con) :
    Inside (scrolledUp con) ↔ KeepsUp con := by
  obtain ⟨-, -, hk3, -⟩ := scrolledUp_keeps (i := i) con
  have hle := start_le hi
  have hsame : con.wScreenStart = con.wConsoleStart ↔
      con.wScreenStart.toNat = W_TTY_CONSOLE_START i := by
    rw [← BitVec.toNat_inj, start_eq hi h.laid]
  rw [inside_rows hi h.laid] at hin
  obtain ⟨h1, h2, h3⟩ := hin
  rw [inside_rows hi (hk3 h.laid), KeepsUp, hsame, start_eq hi h.laid]
  cases hring : con.isFull with
  | false =>
      refine iff_of_true ?_ fun hkeeps => by cases hkeeps.1
      rw [scrolledUp_part hi h.laid hring h1 (by omega) h3]
      split
      · exact ⟨by omega, by omega, by omega⟩
      · exact ⟨h1, h2, h3⟩
  | true =>
      have hlt := con.wScreenStart.isLt
      rcases scrolledUp_full hi h.laid (h.ring hring).1 hring with
        ⟨hfirst, heq⟩ | ⟨hother, heq⟩
      · rw [heq]
        split
        · -- the last words of the ring are no screen of rows
          refine iff_of_false (fun hrows => ?_) fun hkeeps => ?_
          · have := hrows.row
            omega
          · exact hkeeps ⟨rfl, hfirst, by assumption⟩
        · refine iff_of_true ⟨by omega, by omega, by omega⟩ fun hkeeps => ?_
          exact absurd hkeeps.2.2 (by assumption)
      · refine iff_of_true ?_ fun hkeeps => hother hkeeps.2.1
        rcases heq with heq | heq
        · rw [heq]
          exact ⟨h1, h2, h3⟩
        · have hback : (4294967296 - 80 + con.wScreenStart.toNat) % 4294967296 =
              con.wScreenStart.toNat - 80 := by omega
          rw [heq, hback]
          exact ⟨by omega, by omega, by omega⟩

/-- The cursor as a number, also where the boot messages end off the console. -/
def Placed (i : Nat) (con : Console) : Prop :=
  W_TTY_CONSOLE_START i ≤ con.wCursor.toNat ∧ con.wCursor.toNat < 2147483648

theorem inside_dn (hi : i < NR_CONSOLES) (h : Sound i con)
    (hplaced : Placed i con) (hin : Inside con) :
    Inside (scrolledDn con) ↔ KeepsDn con := by
  obtain ⟨-, -, hk3, -⟩ := scrolledDn_keeps (i := i) con
  have hle := start_le hi
  have hmul := rowStart_mod (W_TTY_CONSOLE_START i) con.wCursor.toNat
  rw [inside_rows hi h.laid] at hin
  obtain ⟨h1, h2, h3⟩ := hin
  dsimp only [KeepsDn]
  rw [inside_rows hi (hk3 h.laid), start_eq hi h.laid]
  cases hring : con.isFull with
  | false =>
      have hcur := hplaced.1
      rw [scrolledDn_part hi h.laid hplaced.1 hplaced.2 hring h1 (by omega),
        if_neg Bool.false_ne_true]
      have hrow : W_TTY_CONSOLE_START i + 10880 ≤ con.wCursor.toNat ↔
          W_TTY_CONSOLE_START i + 10880 ≤
            rowStart (W_TTY_CONSOLE_START i) con.wCursor.toNat := by
        rw [rowStart]
        omega
      rw [hrow]
      split
      · constructor
        · rintro ⟨-, hlast, -⟩ hkeeps
          omega
        · intro hkeeps
          exact ⟨by omega, by omega, by omega⟩
      · refine iff_of_true ⟨h1, h2, h3⟩ fun hkeeps => ?_
        omega
  | true =>
      have hon := (onConsole_iff hi h.laid).mpr (h.ring hring).1
      have hend := hon.lt
      obtain ⟨hrow1, hrow2, -⟩ := rowStart_le hon
      rw [scrolledDn_full hi h.laid (h.ring hring).1 hring, nextStart, if_pos rfl]
      by_cases hrefused : (con.wScreenStart.toNat + 1920) % 4294967296 =
          rowStart (W_TTY_CONSOLE_START i) con.wCursor.toNat
      · rw [if_pos hrefused]
        refine iff_of_true ⟨h1, h2, h3⟩ fun hkeeps => ?_
        omega
      · rw [if_neg hrefused, if_neg (by omega)]
        constructor
        · rintro ⟨-, hlast, -⟩ hkeeps
          omega
        · intro hkeeps
          have hnot : con.wScreenStart.toNat ≠ W_TTY_CONSOLE_START i + 8880 :=
            fun heq => hkeeps ⟨heq, by omega⟩
          rw [Nat.mod_eq_of_lt (show con.wScreenStart.toNat + 80 < 4294967296 by omega)]
          exact ⟨by omega, by omega, by omega⟩

end Consoles

/-! ## Runs -/

section Runs

variable {s t : State} {e : Event} {i : Nat} {y : Console}

/-- The condition on a step. -/
def Keeps (s : State) : Event → Prop
  | .print i ch => KeepsPrint (s.console i) ch
  | .scroll i dir =>
      if dir = SCROLL_UP then KeepsUp (s.console i) else KeepsDn (s.console i)
  | .switch _ => True

/-- No console is outside its range. -/
def AllInside (s : State) : Prop := ∀ i < NR_CONSOLES, Inside (s.console i)

/-- Every console is where it belongs. -/
def AllPlaced (s : State) : Prop := ∀ i < NR_CONSOLES, Placed i (s.console i)

/-- Only the console of the step counts. -/
theorem allInside_set (hi : i < NR_CONSOLES) (h : AllInside s)
    (heq : t.console = (setConsole s i y).console) :
    AllInside t ↔ Inside y := by
  constructor
  · intro ht
    have hself := ht i hi
    rwa [heq, setConsole_self] at hself
  · intro hy
    exact forall_setConsole (P := fun _ => Inside) h hy heq

theorem placed_boot (h : Boot s) : AllPlaced s := by
  obtain ⟨⟨dispPos, hcon⟩, -⟩ := h
  intro i hi
  have hle := start_le hi
  have hlt := dispPos.isLt
  rw [hcon i hi, Placed, initConsole]
  dsimp only
  split
  · rename_i hzero
    subst hzero
    rw [BitVec.toNat_udiv]
    exact ⟨Nat.zero_le _, by show dispPos.toNat / 2 < 2147483648; omega⟩
  · rw [BitVec.toNat_ofNat]
    omega

theorem placed_step (hsound : AllSound s) (h : AllPlaced s)
    (hstep : Step s e t) : AllPlaced t := by
  cases hstep with
  | @print fuel _ _ i ch hi hcall =>
      obtain ⟨hon, y, hends, heq⟩ := print_ends hcall
      have hmoving := moving_settled hi (hsound i hi) hon ch
      obtain ⟨hy, hony, -⟩ := sound_ends hi hmoving hends
      obtain ⟨hle, hlo, hhi⟩ := (onConsole_iff hi hy.laid).mpr hony
      exact forall_setConsole (P := Placed) h ⟨hlo, by omega⟩ heq
  | @scroll _ _ i dir hi hcall =>
      obtain ⟨-, heq⟩ := scroll_console hcall
      refine forall_setConsole (P := Placed) h ?_ heq
      split
      · rw [Placed, (scrolledUp_keeps (i := i) _).1]
        exact h i hi
      · rw [Placed, (scrolledDn_keeps (i := i) _).1]
        exact h i hi
  | switch =>
      intro i hi
      rw [(switchConsole_same s _).1]
      exact h i hi

theorem inside_boot (h : Boot s) : AllInside s := by
  obtain ⟨⟨dispPos, hcon⟩, -⟩ := h
  intro i hi
  have hlay : LaidOut i (initConsole dispPos i) := ⟨rfl, rfl⟩
  have hstart : (initConsole dispPos i).wScreenStart.toNat =
      W_TTY_CONSOLE_START i := start_eq hi hlay
  rw [hcon i hi, inside_rows hi hlay, hstart]
  exact ⟨Nat.le_refl _, by omega, by omega⟩

/-- **STEP**: with all screens on their consoles, a step leaves them there
    exactly if it meets the condition. -/
theorem inside_step (hsound : AllSound s) (hplaced : AllPlaced s)
    (h : AllInside s) (hstep : Step s e t) : AllInside t ↔ Keeps s e := by
  cases hstep with
  | @print fuel _ _ i ch hi hcall =>
      obtain ⟨hon, y, hends, heq⟩ := print_ends hcall
      rw [allInside_set hi h heq]
      exact inside_settled hi (hsound i hi) hon (h i hi) hends
  | @scroll _ _ i dir hi hcall =>
      obtain ⟨-, heq⟩ := scroll_console hcall
      rw [allInside_set hi h heq, Keeps]
      split
      · exact inside_up hi (hsound i hi) (h i hi)
      · exact inside_dn hi (hsound i hi) (hplaced i hi) (h i hi)
  | switch =>
      refine iff_of_true (fun i hi => ?_) trivial
      rw [(switchConsole_same s _).1]
      exact h i hi

theorem inside_reach (h : Reach Boot Step Keeps s) :
    AllPlaced s ∧ AllInside s := by
  refine reach_invariant_of AllSound (fun s => AllPlaced s ∧ AllInside s)
    (fun _ => sound_reach) (fun _ hb => ⟨placed_boot hb, inside_boot hb⟩) ?_ h
  rintro s e t hsound - ⟨hplaced, hin⟩ hkeeps hstep
  exact ⟨placed_step hsound hplaced hstep,
    (inside_step hsound hplaced hin hstep).mpr hkeeps⟩

/-- **THE SCREENS STAY ON THEIR CONSOLES** in every run whose steps meet the
    condition, and the first step that does not takes one off. -/
theorem inside_iff (h : Reach Boot Step Keeps s) :
    (∀ i < NR_CONSOLES, Inside (s.console i)) ∧
      ∀ e t, Step s e t →
        ((∀ i < NR_CONSOLES, Inside (t.console i)) ↔ Keeps s e) := by
  obtain ⟨hplaced, hin⟩ := inside_reach h
  exact ⟨hin, fun _ _ => inside_step (sound_reach h) hplaced hin⟩

/-- A character on an empty console. -/
theorem inside_iff_print :
    ∃ s, Reach Boot Step Keeps s ∧ (s.console 1).wCursor = 5462 ∧
      (∀ i < NR_CONSOLES, Inside (s.console i)) ∧
      ∀ e t, Step s e t →
        ((∀ i < NR_CONSOLES, Inside (t.console i)) ↔ Keeps s e) := by
  obtain ⟨t, ht⟩ : ∃ t, consolePrintChar 1 bootScreen 1 0x41 = .ok t :=
    ⟨_, rfl⟩
  have hcursor : (consolePrintChar 1 bootScreen 1 0x41).map
      (fun s => (s.console 1).wCursor) = .ok 5462 := rfl
  rw [ht] at hcursor
  have hkeeps : Keeps bootScreen (.print 1 0x41) :=
    Or.inr ⟨by decide, fun hring => by cases hring⟩
  have hreach : Reach Boot Step Keeps t :=
    .next (.start bootScreen_boot) hkeeps (.print (by decide) ht)
  exact ⟨t, hreach, Except.ok.inj hcursor, inside_iff hreach⟩

set_option maxRecDepth 20000 in
/-- **A SCREEN OFF ITS CONSOLE**: 136 newlines show the last row, which the end
    of the console cuts off. -/
theorem screen_off_console :
    ∃ s, Reach Boot Step free s ∧ ¬ Inside (s.console 0) := by
  have hrun : (printAll 2 0 bootScreen (List.replicate 136 0x0A)).map
      (fun s => decide (s.console 0 =
        { initConsole 0 0 with wScreenStart := 8960, wCursor := 10880 })) =
          .ok true := by
    decide +kernel
  cases hs : printAll 2 0 bootScreen (List.replicate 136 0x0A) with
  | error e =>
      rw [hs] at hrun
      cases hrun
  | ok s =>
      rw [hs] at hrun
      have hcon := of_decide_eq_true (Except.ok.inj hrun)
      refine ⟨s, reach_printAll (by decide) (.start bootScreen_boot) hs, ?_⟩
      rw [hcon]
      rintro ⟨-, hend, -⟩
      exact absurd hend (by decide)

end Runs

end KosConsole
