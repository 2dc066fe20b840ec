import Kos.LineDisciplineProofs
import Kos.ScrollLoopProofs

/-! # Lines and their echo

    A character is echoed on the console first, and where that never returns
    neither does `tty_dev_write`.

    * A round returns exactly if what it echoes can be printed
      (`round_returns`);
    * behind a request the tty keeps to the edited line, with one answer, as
      long as its rounds return (`line_discipline`);
    * a line that is longer than a screen takes the cursor back to the screen's
      first cell, and is never answered (`line_stuck`). -/

namespace KosTty

open FlatMemory KosKernel KosConsole RingBuffer WhileLoop GuardedRun

/-! ## When a round returns -/

section Echo

variable {fuel nr : Nat} {s t : Sys} {screen screen' : State} {ch : Byte}

/-- More rounds allowed do not change a loop that ended. -/
theorem scrollLoop_mono {i n m : Nat} (hle : n ≤ m)
    (h : scrollLoop i n screen = .ok screen') :
    scrollLoop i m screen = .ok screen' := by
  induction n generalizing m screen with
  | zero => cases h
  | succ n ih =>
      obtain ⟨m, rfl⟩ : ∃ k, m = k + 1 := ⟨m - 1, by omega⟩
      rw [scrollLoop] at h ⊢
      split at h
      · rename_i hoff
        rw [if_pos hoff]
        rw [bind_eq_ok] at h ⊢
        obtain ⟨u, hu, hrest⟩ := h
        exact ⟨u, hu, ih (by omega) hrest⟩
      · rename_i hon
        rwa [if_neg hon]

/-- A larger bound on the loop changes nothing. -/
theorem print_mono {fuel' : Nat} (hle : fuel ≤ fuel')
    (h : consolePrintChar fuel screen nr ch = .ok screen') :
    consolePrintChar fuel' screen nr ch = .ok screen' := by
  simp only [consolePrintChar, bind_eq_ok, assert_eq_ok, exists_const,
    pure_eq_ok] at h ⊢
  obtain ⟨hon, hon', u, hu, hlast⟩ := h
  exact ⟨hon, hon', u, scrollLoop_mono hle hu, hlast⟩

/-- A character can be printed. -/
def Prints (screen : State) (nr : Nat) (ch : Byte) : Prop :=
  ¬ IsFull (screen.console nr) ∧ Goes (screen.console nr) ch

/-- When a character is printed. -/
theorem prints_iff (hnr : nr < NR_CONSOLES) (h : AllSound screen) (ch : Byte) :
    (∃ fuel screen', consolePrintChar fuel screen nr ch = .ok screen') ↔
      Prints screen nr ch := by
  constructor
  · rintro ⟨fuel, screen', hprint⟩
    obtain ⟨hon, y, hends, -⟩ := print_ends hprint
    exact ⟨hon, (stops_settled hnr (h nr hnr) hon ch).mp ⟨y, hends⟩⟩
  · intro hgoes
    obtain ⟨fuel, screen', hprint, -⟩ :=
      (printed_iff hnr (h nr hnr) ch).mpr hgoes
    exact ⟨fuel, screen', hprint⟩

/-- A newline can always be printed where the cursor is shown. -/
theorem prints_newline (hnr : nr < NR_CONSOLES) (h : AllSound screen)
    (hprint : consolePrintChar fuel screen nr ch = .ok screen') :
    AllSound screen' ∧ Prints screen' nr 0x0A := by
  obtain ⟨hon, y, hends, heq⟩ := print_ends hprint
  obtain ⟨hsound, hon', hshown⟩ :=
    sound_ends hnr (moving_settled hnr (h nr hnr) hon ch) hends
  refine ⟨sound_step h (.print hnr hprint), ?_⟩
  rw [Prints, heq, setConsole_self]
  refine ⟨hon', ?_⟩
  rw [Goes]
  split
  · rintro ⟨hzero, hlt, -⟩
    have hstart := start_eq hnr hsound.laid
    obtain ⟨-, -, hrow⟩ := rowStart_le ((onConsole_iff hnr hsound.laid).mpr hon')
    rw [offScreen_iff, Hidden] at hshown
    rw [cursorAfter, if_pos rfl, hstart] at hlt
    omega
  · exact fun hback => absurd hback.1 (by decide)

/-- More rounds do not change what becomes of a character. -/
theorem takeChar_mono {fuel' : Nat} (hle : fuel ≤ fuel')
    (h : takeChar fuel nr s ch = .ok t) : takeChar fuel' nr s ch = .ok t := by
  rw [takeChar_eq] at h ⊢
  split at h
  · rename_i htaken
    rw [bind_eq_ok] at h
    obtain ⟨screen, hscreen, hlast⟩ := h
    rw [if_pos htaken, bind_eq_ok]
    exact ⟨screen, print_mono hle hscreen, hlast⟩
  · rename_i hnot
    rwa [if_neg hnot]

/-- Nor the end of a line. -/
theorem finishLine_mono {fuel' : Nat} (hle : fuel ≤ fuel')
    (h : finishLine fuel nr s ch = .ok t) :
    finishLine fuel' nr s ch = .ok t := by
  rw [finishLine_eq] at h ⊢
  split at h
  · rename_i hdone
    rw [bind_eq_ok] at h
    obtain ⟨screen, hscreen, hlast⟩ := h
    rw [if_pos hdone, bind_eq_ok]
    exact ⟨screen, print_mono hle hscreen, hlast⟩
  · rename_i hnot
    rwa [if_neg hnot]

/-- A newline is printed when the line is complete. -/
theorem finishLine_returns (hnr : nr < NR_CONSOLES) (h : AllSound s.screen)
    (ch : Byte) :
    (∃ fuel t, finishLine fuel nr s ch = .ok t) ↔
      (Done s.tty ch → Prints s.screen nr 0x0A) := by
  rw [← prints_iff hnr h]
  constructor
  · rintro ⟨fuel, t, hfinish⟩ hdone
    rw [finishLine_eq, if_pos hdone, bind_eq_ok] at hfinish
    obtain ⟨screen, hscreen, -⟩ := hfinish
    exact ⟨fuel, screen, hscreen⟩
  · intro hprints
    by_cases hdone : Done s.tty ch
    · obtain ⟨fuel, screen, hscreen⟩ := hprints hdone
      refine ⟨fuel, ?_⟩
      rw [finishLine_eq, if_pos hdone, hscreen]
      exact ⟨_, rfl⟩
    · refine ⟨0, ?_⟩
      rw [finishLine_eq, if_neg hdone]
      exact ⟨_, rfl⟩

/-- A character is echoed as it is taken, and a newline for the answer. -/
def Echoed (tty : Tty) (ch : Byte) : Prop := Taken tty ch ∨ ch = 0x0A

/-- The condition on a round: what it echoes can be printed. -/
def RoundGoes (nr : Nat) (s : Sys) : Prop :=
  s.tty.ttyLeftCnt ≠ 0 → Echoed s.tty (nextChar s) →
    Prints s.screen nr (nextChar s)

/-- What a reader takes is echoed, and then the newline behind it goes too. -/
theorem reading_returns (hnr : nr < NR_CONSOLES) (h : AllSound s.screen)
    (hleft : s.tty.ttyLeftCnt ≠ 0) (ch : Byte) :
    (∃ fuel t u, takeChar fuel nr s ch = .ok u ∧ finishLine fuel nr u ch = .ok t) ↔
      (Echoed s.tty ch → Prints s.screen nr ch) := by
  by_cases htaken : Taken s.tty ch
  · constructor
    · rintro ⟨fuel, t, u, htake, -⟩ -
      rw [takeChar_eq, if_pos htaken, bind_eq_ok] at htake
      obtain ⟨screen, hscreen, -⟩ := htake
      exact (prints_iff hnr h ch).mp ⟨fuel, screen, hscreen⟩
    · intro hprints
      obtain ⟨fuel, screen, hscreen⟩ :=
        (prints_iff hnr h ch).mpr (hprints (Or.inl htaken))
      obtain ⟨hsound, hnewline⟩ := prints_newline hnr h hscreen
      obtain ⟨u, htake, hu⟩ : ∃ u, takeChar fuel nr s ch = .ok u ∧
          u.screen = screen := by
        rw [takeChar_eq, if_pos htaken, hscreen]
        exact ⟨_, rfl, rfl⟩
      rw [← hu] at hsound hnewline
      obtain ⟨fuel', t, hfinish⟩ :=
        (finishLine_returns hnr hsound ch).mpr fun _ => hnewline
      exact ⟨max fuel fuel', t, u, takeChar_mono (Nat.le_max_left _ _) htake,
        finishLine_mono (Nat.le_max_right _ _) hfinish⟩
  · -- nothing is taken: the line can only be complete by a newline
    have hprint : ¬ Printable ch := fun hp => htaken (Or.inl hp)
    have hback : ¬ (ch = 0x08 ∧ s.tty.ttyTransCnt ≠ 0) :=
      fun hb => htaken (Or.inr hb)
    have htake : ∀ fuel, takeChar fuel nr s ch = .ok s := fun fuel => by
      rw [takeChar, if_neg hprint, if_neg hback]
      rfl
    have hdone : Done s.tty ch ↔ ch = 0x0A := or_iff_left hleft
    have hecho : Echoed s.tty ch ↔ ch = 0x0A := or_iff_right htaken
    have hfinish := finishLine_returns hnr h ch
    rw [hdone] at hfinish
    rw [hecho]
    constructor
    · rintro ⟨fuel, t, u, hu, ht⟩ rfl
      rw [htake] at hu
      rw [← Except.ok.inj hu] at ht
      exact hfinish.mp ⟨fuel, t, ht⟩ rfl
    · intro hprints
      obtain ⟨fuel, t, ht⟩ := hfinish.mpr fun hnl => by
        rw [← hnl]
        exact hprints hnl
      exact ⟨fuel, t, s, htake fuel, ht⟩

/-- When a round of `tty_dev_write` returns. -/
theorem round_returns (hnr : nr < NR_CONSOLES) (h : OnRun s) :
    (∃ fuel t, ttyDevWriteRound fuel nr s = .ok t) ↔ RoundGoes nr s := by
  have hsound : AllSound (dequeued s).screen := sound_reach h
  by_cases hleft : s.tty.ttyLeftCnt = 0
  · exact iff_of_true ⟨0, _, round_idle hleft⟩ fun hne => absurd hleft hne
  · rw [RoundGoes, imp_iff_right hleft]
    simp only [round_reading hleft]
    exact reading_returns hnr hsound hleft (nextChar s)

/-- A call whose next round does not return does not return. -/
theorem write_stuck {rounds : Nat} (hnr : nr < NR_CONSOLES) (h : OnRun s)
    (hkeys : s.tty.keyBuf.count ≠ 0) (hstuck : ¬ RoundGoes nr s) :
    ttyDevWrite fuel nr rounds s ≠ .ok t := by
  intro hwrite
  cases rounds with
  | zero => cases hwrite
  | succ rounds =>
      rw [ttyDevWrite, if_pos hkeys, bind_eq_ok] at hwrite
      obtain ⟨u, hround, -⟩ := hwrite
      exact hstuck ((round_returns hnr h).mp ⟨fuel, u, hround⟩)

/-- The console behind a round that only echoes. -/
theorem round_echo (hleft : s.tty.ttyLeftCnt ≠ 0)
    (htaken : Taken (dequeued s).tty (nextChar s))
    (hopen : ¬ Done (counted (dequeued s).tty (nextChar s)) (nextChar s))
    (h : ttyDevWriteRound fuel nr s = .ok t) :
    consolePrintChar fuel s.screen nr (nextChar s) = .ok t.screen := by
  obtain ⟨u, htake, hfinish⟩ := (round_reading hleft).mp h
  rw [takeChar_eq, if_pos htaken, bind_eq_ok] at htake
  obtain ⟨screen, hscreen, hu⟩ := htake
  rw [pure_eq_ok] at hu
  subst hu
  rw [finishLine_eq, if_neg hopen, pure_eq_ok] at hfinish
  subst hfinish
  exact hscreen

/-- A request does not touch the screen. -/
theorem read_screen {T : Table} {msg : DevRead} {s₀ : Sys}
    (h : ttyDoRead T s msg = .ok s₀) : s₀.screen = s.screen := by
  simp only [ttyDoRead, bind_eq_ok, pure_eq_ok] at h
  obtain ⟨_, -, rfl⟩ := h
  rfl

/-- The consoles of a run stay those of a run. -/
theorem onRun_run {s₀ : Sys} {keys₀ keys : List (BitVec 32)}
    {chars : List Byte} (hnr : nr < NR_CONSOLES) (h₀ : OnRun s₀)
    (h : Run nr s₀ keys₀ s keys chars) : OnRun s := by
  induction h with
  | request => exact h₀
  | enqueue _ _ ih => exact ih
  | @round s _ _ _ _ _ _ hround ih =>
      by_cases hleft : s.tty.ttyLeftCnt = 0
      · rw [round_idle hleft] at hround
        rw [← Except.ok.inj hround]
        exact ih
      · exact (reading_ok hnr hleft hround).2.2.2 ih
  | screen _ hstep ih => exact .next ih trivial hstep

end Echo

/-! ## A line that is longer than a screen -/

section LongLine

/-- Nobody reads, and nothing has been typed. -/
def idle : Sys where
  tty := {
    keyBuf := { cell := fun _ => 0, head := 0, tail := 0, count := 0 }
    ttyCaller := 0
    ttyProcnr := 0
    ttyReqBuf := 0
    ttyLeftCnt := 0
    ttyTransCnt := 0 }
  screen := bootScreen
  mem := fun _ => 0
  sent := []

/-- The first forked process reads 4000 characters, through FS. -/
def longRead : DevRead where
  source := TASK_FS
  procNr := 9
  buf := 0x1000
  cnt := 4000

/-- The table behind `init_process`. -/
def bootTable : Table := initProcess 0 fun _ => freeProc

variable {s₀ s : Sys} {la : Addr} {k : Nat} {con y : Console}
  {keys : List (BitVec 32)} {chars : List Byte} {ch : Byte}

/-- No key waits at the start. -/
theorem idle_holds : Holds TTY_QUEUE_SIZE idle.tty.keyBuf [] :=
  holds_empty (by decide) rfl rfl

/-- The request of the long line is taken. -/
theorem longRead_ok : ∃ s₀, ttyDoRead bootTable idle longRead = .ok s₀ := by
  have hla : procVa2la bootTable longRead.procNr longRead.buf =
      .ok (gdtLdtToBaseAddr (bootTable 9).ldtRw + 0x1000) :=
    procVa2la_eq_ok.mpr ⟨rfl, fun hnative => absurd hnative (by decide)⟩
  rw [ttyDoRead, hla]
  exact ⟨_, rfl⟩

/-- What is next, by the keys that were let in. -/
theorem next_of_order {msg : DevRead} {before : Sys} {rest : List Byte}
    (h : Disciplined msg la before s keys chars)
    (heq : keys.map charOf = chars ++ ch :: rest) :
    s.tty.keyBuf.count ≠ 0 ∧ nextChar s = ch := by
  obtain ⟨pending, hholds, horder⟩ := h.in_order
  rw [heq, List.append_cancel_left_eq] at horder
  cases pending with
  | nil => cases horder
  | cons key pending =>
      have hcount := hholds.count_eq
      rw [List.length_cons] at hcount
      rw [nextChar, (holds_get hholds).1]
      exact ⟨by omega, (List.cons.inj horder).1⟩

/-- Of `keys`, all taken, `k` letters are left on the line; `con` is the
    console. -/
structure Letters (s₀ : Sys) (k : Nat) (con : Console)
    (keys : List (BitVec 32)) (s : Sys) : Prop where
  run : Run 0 s₀ [] s keys (keys.map charOf)
  line : lineOf 4000 (keys.map charOf) = (List.replicate k 0x61, false)
  console : s.screen.console 0 = con

/-- Every letter typed has been read. -/
theorem Letters.no_keys (h₀ : Disciplined longRead la idle s₀ [] [])
    (h : Letters s₀ k con keys s) : s.tty.keyBuf.count = 0 := by
  obtain ⟨pending, hholds, horder⟩ :=
    (disciplined_run (by decide) (by decide) h₀ h.run).in_order
  rw [List.append_right_eq_self, List.map_eq_nil_iff] at horder
  rw [hholds.count_eq, horder]
  rfl

/-- A key comes and is taken. -/
theorem letters_key (h₀ : Disciplined longRead la idle s₀ [] []) (hs₀ : OnRun s₀)
    (h : Letters s₀ k con keys s) (key : BitVec 32) {n : Nat}
    (htaken : Printable (charOf key) ∨ charOf key = 0x08 ∧ k ≠ 0)
    (hedit : edit (List.replicate k 0x61) (charOf key) = List.replicate n 0x61)
    (hn : n < 4000) (hon : ¬ IsFull con)
    (hends : Ends OffScreen scrolledDn (settled con (charOf key)) y) :
    ∃ t, Letters s₀ n y (keys ++ [key]) t := by
  have hnr : 0 < NR_CONSOLES := by decide
  have hempty : s.tty.keyBuf.count < TTY_QUEUE_SIZE := by
    rw [h.no_keys h₀]
    decide
  have hrun := Run.enqueue key h.run
  rw [if_pos hempty] at hrun
  have hd := disciplined_run hnr (by decide) h₀ hrun
  have hrunning := onRun_run hnr hs₀ hrun
  obtain ⟨hkeys, hnext⟩ := next_of_order hd (List.map_append)
  have hopen : (typed 4000 (List.replicate k 0x61, false) (charOf key)).2 = false := by
    have hnl : charOf key ≠ 0x0A := by
      rintro heq
      rw [heq] at htaken
      exact htaken.elim (by decide) fun hback => absurd hback.1 (by decide)
    show decide (charOf key = 0x0A ∨ _) = false
    rw [hedit, List.length_replicate]
    exact decide_eq_false fun hor => hor.elim hnl (by omega)
  have hline : lineOf 4000 ((keys ++ [key]).map charOf) =
      (List.replicate n 0x61, false) := by
    rw [List.map_append, List.map_singleton, lineOf_snoc, h.line]
    exact Prod.ext hedit hopen
  obtain ⟨htrans, hsum⟩ := hd.counts (congrArg Prod.snd h.line)
  rw [show (lineOf longRead.cnt (keys.map charOf)).1 = List.replicate k 0x61
    from congrArg Prod.fst h.line] at htrans
  -- the echo returns, and leaves the console that the loop ends at
  have hgoes : RoundGoes 0 { s with tty := ttyKeyEnqueue s.tty key } := by
    intro _ _
    rw [hnext, Prints, h.console]
    have hsound := sound_reach hrunning 0 hnr
    rw [h.console] at hsound
    exact ⟨hon, (stops_settled hnr hsound hon _).mp ⟨y, hends⟩⟩
  obtain ⟨fuel, t, hround⟩ := (round_returns hnr hrunning).mpr hgoes
  have hrun' := Run.round hrun hkeys hround
  have hline' : (keys ++ [key]).map charOf = keys.map charOf ++
      [nextChar { s with tty := ttyKeyEnqueue s.tty key }] := by
    rw [hnext, List.map_append, List.map_singleton]
  rw [← hline'] at hrun'
  refine ⟨t, hrun', hline, ?_⟩
  have hleft := of_decide_eq_false
    (hd.answered.symm.trans (congrArg Prod.snd h.line))
  have hprint := round_echo hleft
    (by
      rw [hnext]
      rw [List.length_replicate] at htrans
      exact htaken.imp_right fun hback => ⟨hback.1, fun hzero =>
        hback.2 (Int.natCast_eq_zero.mp (htrans.symm.trans hzero))⟩)
    (by
      rw [hnext, done_iff (dequeued _).tty (charOf key) htrans hsum,
        Bool.not_eq_true]
      exact hopen) hround
  rw [hnext] at hprint
  obtain ⟨-, z, hz, heq⟩ := print_ends hprint
  rw [show ({ s with tty := ttyKeyEnqueue s.tty key } : Sys).screen.console 0 = con
    from h.console] at hz
  rw [heq, setConsole_self]
  exact ends_unique hz hends

/-- A letter moves the cursor by one. -/
theorem settled_letter {a p : Nat} (hp : p + 1 < 10922) :
    settled (shownFrom a p) 0x61 = shownFrom a (p + 1) := by
  have hforward : advance (shownFrom a p) 0x61 = shownFrom a (p + 1) := by
    rw [advance, if_neg (by decide), if_neg (by decide), shownFrom, shownFrom,
      BitVec.ofNat_add]
    rfl
  rw [settled, hforward, if_neg (shownFrom_on hp)]

/-- A letter lengthens the line. -/
theorem edit_letter (k : Nat) :
    edit (List.replicate k 0x61) 0x61 = List.replicate (k + 1) 0x61 := by
  rw [edit, if_pos (by decide), List.replicate_succ']

/-- A backspace shortens it. -/
theorem edit_backspace (k : Nat) :
    edit (List.replicate (k + 1) 0x61) 0x08 = List.replicate k 0x61 := by
  rw [edit, if_neg (by decide), if_pos rfl, List.replicate_succ',
    List.dropLast_concat]

/-- The screen after boot is sound. -/
theorem onRun_boot (h : s.screen = bootScreen) : OnRun s := by
  rw [OnRun, h]
  exact .start bootScreen_boot

/-- Letters, as far as the first screen goes. -/
theorem letters_typed (h₀ : Disciplined longRead la idle s₀ [] [])
    (hscreen : s₀.screen = bootScreen) (hk : k < 2000) :
    ∃ s, Letters s₀ k (shownFrom 0 k) (List.replicate k 0x61) s := by
  have hs₀ := onRun_boot hscreen
  induction k with
  | zero => exact ⟨s₀, .request, rfl, by rw [hscreen]; rfl⟩
  | succ k ih =>
      obtain ⟨s, hs⟩ := ih (by omega)
      rw [List.replicate_succ']
      refine letters_key h₀ hs₀ hs 0x61 (Or.inl (by decide)) (edit_letter k)
        (by omega) (shownFrom_on (by omega)) ?_
      rw [show charOf 0x61 = 0x61 from rfl, settled_letter (by omega)]
      exact .stop (by rw [shownFrom_off (by omega) (by decide)]; omega)

/-- The 2000th letter moves the screen down a row. -/
theorem letter_scrolls :
    Ends OffScreen scrolledDn (settled (shownFrom 0 1999) 0x61)
      (shownFrom 80 2000) := by
  rw [settled_letter (by decide)]
  have hnext : scrolledDn (shownFrom 0 (1999 + 1)) = shownFrom 80 2000 := rfl
  refine .round ?_ ?_
  · rw [shownFrom_off (by decide) (by decide)]
    decide
  · rw [hnext]
    refine .stop ?_
    rw [shownFrom_off (by decide) (by decide)]
    decide

/-- Backspaces go back on that screen. -/
theorem backspaces_typed (h₀ : Disciplined longRead la idle s₀ [] [])
    (hscreen : s₀.screen = bootScreen) {j : Nat} (hj : j ≤ 1920) :
    ∃ s, Letters s₀ (2000 - j) (shownFrom 80 (2000 - j))
      (List.replicate 2000 0x61 ++ List.replicate j 0x08) s := by
  have hs₀ := onRun_boot hscreen
  induction j with
  | zero =>
      obtain ⟨s, hs⟩ := letters_typed h₀ hscreen (show 1999 < 2000 by decide)
      obtain ⟨t, ht⟩ := letters_key h₀ hs₀ hs 0x61 (Or.inl (by decide))
        (edit_letter 1999) (by decide) (shownFrom_on (by decide)) letter_scrolls
      rw [← List.replicate_succ'] at ht
      refine ⟨t, ?_⟩
      rw [List.replicate_zero, List.append_nil]
      exact ht
  | succ j ih =>
      obtain ⟨s, hs⟩ := ih (by omega)
      rw [List.replicate_succ' (n := j), ← List.append_assoc]
      have hcells : 2000 - j = 2000 - (j + 1) + 1 := by omega
      rw [hcells] at hs
      refine letters_key h₀ hs₀ hs 0x08 (Or.inr ⟨rfl, by omega⟩)
        (edit_backspace _) (by omega) (shownFrom_on (by omega)) ?_
      rw [show charOf 0x08 = 0x08 from rfl, settled_backspace (by omega)]
      exact .stop (by rw [shownFrom_off (by omega) (by decide)]; omega)

end LongLine

/-! ## The whole -/

section Whole

variable {nr : Nat} {T : Table} {msg : DevRead} {s s₀ t : Sys}
  {keys₀ keys : List (BitVec 32)} {chars : List Byte}

/-- **THE LINE DISCIPLINE**: behind a request the counters, the buffer and the
    answer are those of the edited line, and no key is lost but at a full ring.
    A round returns exactly if what it echoes can be printed, and a whole call
    takes all keys. -/
theorem line_discipline (hnr : nr < NR_CONSOLES)
    (hscreen : Reach Boot Step free s.screen)
    (hkeys : Holds TTY_QUEUE_SIZE s.tty.keyBuf keys₀)
    (hcnt : 1 ≤ msg.cnt ∧ msg.cnt < 2147483648)
    (hread : ttyDoRead T s msg = .ok s₀) (hrun : Run nr s₀ keys₀ t keys chars) :
    ∃ la, procVa2la T msg.procNr msg.buf = .ok la ∧
      Disciplined msg la s t keys chars ∧
      ((∃ fuel u, ttyDevWriteRound fuel nr t = .ok u) ↔ RoundGoes nr t) ∧
      ∀ fuel rounds u, ttyDevWrite fuel nr rounds t = .ok u →
        Disciplined msg la s u keys (keys.map charOf) := by
  obtain ⟨la, hla, h₀⟩ := disciplined_request hcnt.1 hkeys hread
  have hrunning : OnRun s₀ := by
    rw [OnRun, read_screen hread]
    exact hscreen
  refine ⟨la, hla, disciplined_run hnr hcnt.2 h₀ hrun,
    round_returns hnr (onRun_run hnr hrunning hrun), fun fuel rounds u hwrite => ?_⟩
  obtain ⟨hnone, chars', hrun'⟩ := write_run hrun hwrite
  have hend := disciplined_run hnr hcnt.2 h₀ hrun'
  rw [← hend.drained hnone]
  exact hend

/-- A letter on a line of 4000. -/
theorem line_discipline_letter :
    ∃ s₀ t, ttyDoRead bootTable idle longRead = .ok s₀ ∧
      Run 0 s₀ [] t [0x61] [0x61] ∧
      ∃ la, procVa2la bootTable 9 0x1000 = .ok la ∧
        Disciplined longRead la idle t [0x61] [0x61] ∧
        ((∃ fuel u, ttyDevWriteRound fuel 0 t = .ok u) ↔ RoundGoes 0 t) ∧
        ∀ fuel rounds u, ttyDevWrite fuel 0 rounds t = .ok u →
          Disciplined longRead la idle u [0x61] [0x61] := by
  obtain ⟨s₀, hread⟩ := longRead_ok
  obtain ⟨la, -, h₀⟩ := disciplined_request (by decide) idle_holds hread
  obtain ⟨t, ht⟩ := letters_typed h₀ (read_screen hread) (show 1 < 2000 by decide)
  exact ⟨s₀, t, hread, ht.run, line_discipline (by decide)
    (.start bootScreen_boot) idle_holds ⟨by decide, by decide⟩ hread ht.run⟩

/-- Enter ends the line. -/
theorem lineOf_newline (n : Int) (chars : List Byte) :
    (lineOf n (chars ++ [0x0A])).2 = true := by
  rw [lineOf_snoc, typed]
  split
  · assumption
  · rw [decide_eq_true_iff]
    exact Or.inl rfl

/-- 2000 letters, 1921 backspaces and a newline. -/
def longKeys : List (BitVec 32) :=
  List.replicate 2000 0x61 ++ List.replicate 1920 0x08 ++ [0x08] ++ [0x0A]

/-- The characters of a line ended by a backspace and Enter. -/
theorem last_two (keys : List (BitVec 32)) :
    (keys ++ [0x08] ++ [0x0A]).map charOf =
      keys.map charOf ++ 0x08 :: [0x0A] := by
  rw [List.map_append, List.map_append, List.append_assoc]
  rfl

/-- **THE LINE THAT IS NEVER ANSWERED**: the last backspace is echoed at the
    first cell of a screen that has moved down, and TTY stays in that loop. -/
theorem line_stuck :
    ∃ s₀ s chars, ttyDoRead bootTable idle longRead = .ok s₀ ∧
      Run 0 s₀ [] s longKeys chars ∧
      (lineOf longRead.cnt (longKeys.map charOf)).2 = true ∧
      s.sent = [.suspendProc TASK_FS 4000] ∧
      ∀ fuel rounds t, ttyDevWrite fuel 0 rounds s ≠ .ok t := by
  have hnr : 0 < NR_CONSOLES := by decide
  obtain ⟨s₀, hread⟩ := longRead_ok
  obtain ⟨la, -, h₀⟩ := disciplined_request (by decide) idle_holds hread
  have hscreen : s₀.screen = bootScreen := read_screen hread
  obtain ⟨s, hs⟩ := backspaces_typed h₀ hscreen (Nat.le_refl 1920)
  have hempty := hs.no_keys h₀
  have hrun₁ := Run.enqueue 0x08 hs.run
  rw [if_pos (by rw [hempty]; decide)] at hrun₁
  have hone : (ttyKeyEnqueue s.tty 0x08).keyBuf.count = 1 := by
    rw [ttyKeyEnqueue, if_pos (by rw [hempty]; decide)]
    show s.tty.keyBuf.count + 1 = 1
    rw [hempty]
  have hrun := Run.enqueue 0x0A hrun₁
  rw [if_pos (by dsimp only; rw [hone]; decide)] at hrun
  have hd := disciplined_run hnr (by decide) h₀ hrun
  obtain ⟨hkeys, hnext⟩ := next_of_order hd (last_two _)
  have hopen := congrArg Prod.snd hs.line
  refine ⟨s₀, _, _, hread, hrun, ?_, ?_, ?_⟩
  · rw [longKeys, List.map_append]
    exact lineOf_newline _ _
  · rw [hd.sent]
    show _ ++ _ :: (if (lineOf 4000 _).2 then _ else _) = _
    rw [hopen]
    rfl
  · intro fuel rounds t
    refine write_stuck hnr (onRun_run hnr (onRun_boot hscreen) hrun) hkeys ?_
    intro hgoes
    obtain ⟨htrans, -⟩ := hd.counts hopen
    have hsome : ({ s with tty := ttyKeyEnqueue (ttyKeyEnqueue s.tty 0x08) 0x0A } :
        Sys).tty.ttyTransCnt ≠ 0 := by
      rw [htrans]
      show ((lineOf 4000 _).1.length : Int) ≠ 0
      rw [hs.line]
      decide
    rw [RoundGoes, hnext] at hgoes
    obtain ⟨-, hstuck⟩ := hgoes
      (of_decide_eq_false (hd.answered.symm.trans hopen))
      (Or.inl (Or.inr ⟨rfl, hsome⟩))
    dsimp only at hstuck
    rw [hs.console] at hstuck
    exact hstuck ⟨rfl, rfl, by decide⟩

end Whole

end KosTty
