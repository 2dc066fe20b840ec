import Kos.GuardedRunProofs
import Kos.KernelProofs

/-! # Consoles in video memory

    `console_print_char`, `scroll_screen` and `switch_console` of
    `device/console.c`, with the console layout of `init_screen`.  Video
    memory is an array of words; a word is a cell of the screen, and every
    write is recorded with the console it was made for.

    * every printing step writes only cells of its own console's share, when
      the character and the rows it clears fit the share (`touches_print`);
    * so in every run whose steps meet that condition the consoles do not
      overlap (`consoles_apart`);
    * the console size that `init_screen` computes is twice the share, and
      output alone carries console 0 into console 1 (`consoles_overlap`). -/

namespace KosConsole

open KosKernel GuardedRun

/-! ## Constants -/

/-- Of `console.h` and `const.h`. -/
def VIDEO_MEM_SIZE : Nat := 0x8000
def NR_CONSOLES : Nat := 3
def SCR_WIDTH : Nat := 80
def SCR_SIZE : Nat := 80 * 25
def SCROLL_UP : Int := 1
def SCROLL_DN : Int := -1
def DEFAULT_CHAR_COLOR : BitVec 8 := (0x0 <<< 4) ||| 0x7

/-- `W_TTY_CONSOLE_START(nr_tty)`, which expands to
    `nr_tty * VIDEO_MEM_SIZE / NR_CONSOLES >> 1`. -/
def W_TTY_CONSOLE_START (nrTty : Nat) : Nat :=
  (nrTty * VIDEO_MEM_SIZE / NR_CONSOLES) >>> 1

/-- `W_SIZE_PER_CONSOLE / SCR_WIDTH * SCR_WIDTH`, which expands to
    `VIDEO_MEM_SIZE / NR_CONSOLES >> 1 / SCR_WIDTH * SCR_WIDTH`: the shift
    binds weaker than the division. -/
def W_CONSOLE_SIZE : Nat :=
  (VIDEO_MEM_SIZE / NR_CONSOLES) >>> (1 / SCR_WIDTH * SCR_WIDTH)

/-- The words of one console's share of video memory. -/
def W_SHARE : Nat := VIDEO_MEM_SIZE / NR_CONSOLES / 2

/-- The word `w` belongs to the share of console `i`. -/
def InShare (i w : Nat) : Prop :=
  W_TTY_CONSOLE_START i ≤ w ∧ w < W_TTY_CONSOLE_START i + W_SHARE

instance (i w : Nat) : Decidable (InShare i w) :=
  inferInstanceAs (Decidable (_ ∧ _))

/-! ## State -/

/-- `CONSOLE`; the fields that start with `w` are `unsigned int`. -/
structure Console where
  wScreenStart : BitVec 32
  wConsoleStart : BitVec 32
  wConsoleSize : BitVec 32
  wCursor : BitVec 32
  isFull : Bool
  deriving DecidableEq, Repr

/-- The consoles, the one on the screen, and the video memory. -/
structure State where
  /-- `console_table` -/
  console : Nat → Console
  currentConsole : Int
  /-- the cursor and start registers of the CRT controller -/
  crtCursor : BitVec 16
  crtStart : BitVec 16
  /-- the words from `VIDEO_MEM_BASE` on -/
  video : Nat → BitVec 16
  /-- the words written and for which console, newest first -/
  written : List (Nat × Nat)

/-- Assign to one console. -/
def setConsole (s : State) (i : Nat) (con : Console) : State :=
  { s with console := fun j => if j = i then con else s.console j }

/-- Write one word for console `i`. -/
def putWord (s : State) (i w : Nat) (v : BitVec 16) : State :=
  { s with
    video := fun x => if x = w then v else s.video x
    written := (i, w) :: s.written }

/-- A character in the default colour. -/
def cellOf (ch : BitVec 8) : BitVec 16 := DEFAULT_CHAR_COLOR ++ ch

/-! ## The source functions -/

/-- `clear_screen_buf`. -/
def clearScreenBuf (i : Nat) : State → (pos len : Nat) → State
  | s, _, 0 => s
  | s, pos, n + 1 =>
      clearScreenBuf i (putWord s i pos (cellOf 0x20)) (pos + 1) n

/-- `move_screen_buf`, a copy in ascending order. -/
def moveScreenBuf (i : Nat) : State → (dst src size : Nat) → State
  | s, _, _, 0 => s
  | s, dst, src, n + 1 =>
      moveScreenBuf i (putWord s i dst (s.video src)) (dst + 1) (src + 1) n

/-- `do_screen_refresh`. -/
def doScreenRefresh (s : State) (i : Nat) : State :=
  if s.currentConsole = i then
    { s with
      crtCursor := (s.console i).wCursor.setWidth 16
      crtStart := (s.console i).wScreenStart.setWidth 16 }
  else s

/-- `w_latest_offs`: the row of the cursor. -/
def wLatestOffs (con : Console) : BitVec 32 :=
  (con.wCursor - con.wConsoleStart) / BitVec.ofNat 32 SCR_WIDTH *
    BitVec.ofNat 32 SCR_WIDTH

/-- `w_oldest_offs`: the oldest row of the ring. -/
def wOldestOffs (con : Console) : BitVec 32 :=
  if con.isFull then
    (wLatestOffs con + BitVec.ofNat 32 SCR_WIDTH) % con.wConsoleSize
  else 0

/-- `w_screen_start_offset`. -/
def wScreenStartOffset (con : Console) : BitVec 32 :=
  con.wScreenStart - con.wConsoleStart

/-- The branch `SCROLL_UP` of `scroll_screen`. -/
def scrolledUp (con : Console) : Console :=
  if con.isFull = false ∧ BitVec.slt 0 (wScreenStartOffset con) then
    { con with wScreenStart := con.wScreenStart - BitVec.ofNat 32 SCR_WIDTH }
  else if con.isFull = true ∧ wScreenStartOffset con ≠ wOldestOffs con then
    if con.wCursor - con.wConsoleStart ≥
        con.wConsoleSize - BitVec.ofNat 32 SCR_SIZE then
      if con.wScreenStart ≠ con.wConsoleStart then
        { con with wScreenStart := con.wScreenStart - BitVec.ofNat 32 SCR_WIDTH }
      else con
    else if con.wScreenStart = con.wConsoleStart then
      { con with
        wScreenStart := con.wConsoleStart +
          (con.wConsoleSize - BitVec.ofNat 32 SCR_SIZE) }
    else
      { con with wScreenStart := con.wScreenStart - BitVec.ofNat 32 SCR_WIDTH }
  else con

/-- The branch `SCROLL_DN` of `scroll_screen`. -/
def scrolledDn (con : Console) : Console :=
  if con.isFull = false ∧
      BitVec.sle (wScreenStartOffset con + BitVec.ofNat 32 SCR_SIZE)
        (wLatestOffs con) then
    { con with wScreenStart := con.wScreenStart + BitVec.ofNat 32 SCR_WIDTH }
  else if con.isFull = true ∧
      wScreenStartOffset con + BitVec.ofNat 32 SCR_SIZE -
        BitVec.ofNat 32 SCR_WIDTH ≠ wLatestOffs con then
    if wScreenStartOffset con + BitVec.ofNat 32 SCR_SIZE =
        con.wConsoleSize then
      { con with wScreenStart := con.wConsoleStart }
    else
      { con with wScreenStart := con.wScreenStart + BitVec.ofNat 32 SCR_WIDTH }
  else con

/-- `scroll_screen`. -/
def scrollScreen (s : State) (i : Nat) (dir : Int) : Except Halt State := do
  assert (dir = SCROLL_DN ∨ dir = SCROLL_UP)
  let con := if dir = SCROLL_UP then scrolledUp (s.console i)
    else scrolledDn (s.console i)
  pure (doScreenRefresh (setConsole s i con) i)

/-- The cell that a character is written to, if it is written. -/
def cellFor (con : Console) (ch : BitVec 8) : Option Nat :=
  if ch = 0x0A then none
  else if ch = 0x08 then
    if con.wCursor > con.wConsoleStart then some (con.wCursor - 1).toNat
    else none
  else some con.wCursor.toNat

/-- The cursor after the `switch` of `console_print_char`. -/
def advance (con : Console) (ch : BitVec 8) : Console :=
  let width := BitVec.ofNat 32 SCR_WIDTH
  let wCursorY := (con.wCursor - con.wConsoleStart) / width
  if ch = 0x0A then
    { con with wCursor := con.wConsoleStart + width * (wCursorY + 1) }
  else if ch = 0x08 then
    if con.wCursor > con.wConsoleStart then
      { con with wCursor := con.wCursor - 1 }
    else con
  else { con with wCursor := con.wCursor + 1 }

/-- The character, in its cell; a backspace leaves a blank. -/
def putCell (s : State) (i : Nat) (ch : BitVec 8) : State :=
  match cellFor (s.console i) ch with
  | some w => putWord s i w (cellOf (if ch = 0x08 then 0x20 else ch))
  | none => s

/-- The `switch` of `console_print_char`. -/
def putChar (s : State) (i : Nat) (ch : BitVec 8) : State :=
  setConsole (putCell s i ch) i (advance (s.console i) ch)

/-- "console x is full". -/
def IsFull (con : Console) : Prop :=
  con.wCursor - con.wConsoleStart ≥ con.wConsoleSize

instance (con : Console) : Decidable (IsFull con) :=
  inferInstanceAs (Decidable (_ ≥ _))

/-- The fields of a console that starts again. -/
def restarted (con : Console) : Console :=
  let width := BitVec.ofNat 32 SCR_WIDTH
  let wCursorX := (con.wCursor - con.wConsoleStart) % width
  { con with
    wScreenStart := con.wConsoleStart
    wCursor := con.wConsoleStart +
      (BitVec.ofNat 32 SCR_SIZE - width) + wCursorX
    isFull := true }

/-- The branch of `console_print_char` for a full console: the screen moves to
    the start of the console. -/
def restart (s : State) (i : Nat) : State :=
  let con := s.console i
  let wCursorY := (con.wCursor - con.wConsoleStart) / BitVec.ofNat 32 SCR_WIDTH
  let wScreenStart := con.wConsoleStart +
    (wCursorY + 1) * BitVec.ofNat 32 SCR_WIDTH - BitVec.ofNat 32 SCR_SIZE
  let s := moveScreenBuf i s con.wConsoleStart.toNat wScreenStart.toNat
    (SCR_SIZE - SCR_WIDTH)
  let s := setConsole s i (restarted con)
  clearScreenBuf i s (restarted con).wCursor.toNat SCR_WIDTH

/-- What is done in front of a character when the share is full. -/
def wrapConsole (s : State) (i : Nat) : State :=
  if IsFull (s.console i) then restart s i else s

/-- The cursor is not on the screen. -/
def OffScreen (con : Console) : Prop :=
  con.wCursor ≥ con.wScreenStart + BitVec.ofNat 32 SCR_SIZE ∨
    con.wCursor < con.wScreenStart

instance (con : Console) : Decidable (OffScreen con) :=
  inferInstanceAs (Decidable (_ ∨ _))

/-- The closing loop of `console_print_char`: scroll the cursor onto the
    screen. -/
def scrollLoop (i : Nat) : Nat → State → Except Halt State
  | 0, _ => .error .spin
  | n + 1, s =>
      if OffScreen (s.console i) then do
        let s ← scrollScreen s i SCROLL_DN
        scrollLoop i n (clearScreenBuf i s (s.console i).wCursor.toNat SCR_WIDTH)
      else pure s

/-- `console_print_char`. -/
def consolePrintChar (fuel : Nat) (s : State) (i : Nat) (ch : BitVec 8) :
    Except Halt State := do
  assert (¬ IsFull (s.console i))
  let s := putChar s i ch
  let s := wrapConsole s i
  assert (¬ IsFull (s.console i))
  let s ← scrollLoop i fuel s
  pure (doScreenRefresh s i)

/-- `switch_console`. -/
def switchConsole (s : State) (nrConsole : Int) : State :=
  if nrConsole < 0 ∨ nrConsole ≥ NR_CONSOLES then s
  else doScreenRefresh { s with currentConsole := nrConsole } nrConsole.toNat

/-- The fields that `init_screen` assigns.  The cursor of console 0 stays
    where the boot messages left it; the prompt of the others is printed with
    `console_print_char`. -/
def initConsole (dispPos : BitVec 32) (nrTty : Nat) : Console where
  wScreenStart := BitVec.ofNat 32 (W_TTY_CONSOLE_START nrTty)
  wConsoleStart := BitVec.ofNat 32 (W_TTY_CONSOLE_START nrTty)
  wConsoleSize := BitVec.ofNat 32 W_CONSOLE_SIZE
  wCursor := if nrTty = 0 then dispPos / 2
    else BitVec.ofNat 32 (W_TTY_CONSOLE_START nrTty)
  isFull := false

/-! ## Runs -/

/-- The consoles after `init_screen`; nothing has been printed yet. -/
def Boot (s : State) : Prop :=
  (∃ dispPos, ∀ i < NR_CONSOLES, s.console i = initConsole dispPos i) ∧
    s.written = []

/-- What is asked of the consoles. -/
inductive Event where
  | print (i : Nat) (ch : BitVec 8)
  | scroll (i : Nat) (dir : Int)
  | switch (nrConsole : Int)
  deriving DecidableEq, Repr

/-- A character, a scroll or a switch. -/
inductive Step : State → Event → State → Prop where
  | print {fuel : Nat} {s t : State} {i : Nat} {ch : BitVec 8}
      (hi : i < NR_CONSOLES) (hcall : consolePrintChar fuel s i ch = .ok t) :
      Step s (.print i ch) t
  | scroll {s t : State} {i : Nat} {dir : Int} (hi : i < NR_CONSOLES)
      (hcall : scrollScreen s i dir = .ok t) : Step s (.scroll i dir) t
  | switch {s : State} {n : Int} : Step s (.switch n) (switchConsole s n)

/-- The console once the character is on it and it has started again if it
    was full. -/
def settled (con : Console) (ch : BitVec 8) : Console :=
  if IsFull (advance con ch) then restarted (advance con ch)
  else advance con ch

/-- The condition on a step: the cursor is in front of the next console (or at
    its start, before a backspace), and when the character takes it off the screen
    there is room for a row behind it. -/
def Fits (s : State) : Event → Prop
  | .print i ch =>
      (ch ≠ 0x0A → (s.console i).wCursor.toNat <
        W_TTY_CONSOLE_START i + W_SHARE + if ch = 0x08 then 1 else 0) ∧
      (OffScreen (settled (s.console i) ch) →
        (settled (s.console i) ch).wCursor.toNat + SCR_WIDTH ≤
          W_TTY_CONSOLE_START i + W_SHARE)
  | _ => True

/-! ## The shares -/

/-- Every share starts in the first third of the memory. -/
theorem start_le {i : Nat} (hi : i < NR_CONSOLES) :
    W_TTY_CONSOLE_START i ≤ 10922 := by
  have hall : ∀ i < NR_CONSOLES, W_TTY_CONSOLE_START i ≤ 10922 := by decide
  exact hall i hi

/-- The shares lie inside video memory and share no word. -/
theorem share_apart {i w : Nat} (hi : i < NR_CONSOLES) (h : InShare i w) :
    w < VIDEO_MEM_SIZE / 2 ∧ ∀ j < NR_CONSOLES, j ≠ i → ¬ InShare j w := by
  have hend : W_TTY_CONSOLE_START i + W_SHARE ≤ VIDEO_MEM_SIZE / 2 :=
    Nat.le_trans (Nat.add_le_add_right (start_le hi) _) (by decide)
  refine ⟨Nat.lt_of_lt_of_le h.2 hend, ?_⟩
  intro j hj hji hw
  have hgap : ∀ i < NR_CONSOLES, ∀ j < NR_CONSOLES, i < j →
      W_TTY_CONSOLE_START i + W_SHARE ≤ W_TTY_CONSOLE_START j := by decide
  rcases Nat.lt_or_gt_of_ne hji with hlt | hlt
  · exact absurd hw.2 (Nat.not_lt.mpr
      (Nat.le_trans (hgap j hj i hi hlt) h.1))
  · exact absurd h.2 (Nat.not_lt.mpr
      (Nat.le_trans (hgap i hi j hj hlt) hw.1))

/-! ## What is written -/

/-- From `s` to `t` words were written for console `i`, inside its share, and
    no other word changed. -/
def Touches (i : Nat) (s t : State) : Prop :=
  ∃ ws : List Nat, t.written = ws.map (Prod.mk i) ++ s.written ∧
    (∀ w ∈ ws, InShare i w) ∧ ∀ w, w ∉ ws → t.video w = s.video w

/-- A step that writes nothing. -/
theorem touches_of_same {i : Nat} {s t : State} (hv : t.video = s.video)
    (hw : t.written = s.written) : Touches i s t :=
  ⟨[], hw, by simp, fun w _ => by rw [hv]⟩

/-- Two steps in the same share. -/
theorem touches_trans {i : Nat} {s t u : State} (h : Touches i s t)
    (h' : Touches i t u) : Touches i s u := by
  obtain ⟨ws, hw, hin, hout⟩ := h
  obtain ⟨ws', hw', hin', hout'⟩ := h'
  refine ⟨ws' ++ ws, ?_, ?_, ?_⟩
  · rw [hw', hw, List.map_append, List.append_assoc]
  · intro w hmem
    rcases List.mem_append.mp hmem with hmem | hmem
    · exact hin' w hmem
    · exact hin w hmem
  · intro w hmem
    rw [List.mem_append, not_or] at hmem
    rw [hout' w hmem.1, hout w hmem.2]

/-- A cell of the share. -/
theorem touches_putWord {i w : Nat} {s : State} {v : BitVec 16}
    (h : InShare i w) : Touches i s (putWord s i w v) := by
  refine ⟨[w], rfl, ?_, ?_⟩
  · intro x hx
    rw [List.mem_singleton.mp hx]
    exact h
  · intro x hx
    rw [List.mem_singleton] at hx
    exact if_neg hx

/-- A change of the console writes nothing. -/
theorem touches_setConsole {i : Nat} {s : State} (con : Console) :
    Touches i s (setConsole s i con) :=
  touches_of_same rfl rfl

/-- Cells that are cleared. -/
theorem touches_clear {i : Nat} {s : State} {pos len : Nat}
    (hlo : W_TTY_CONSOLE_START i ≤ pos)
    (hhi : pos + len ≤ W_TTY_CONSOLE_START i + W_SHARE) :
    Touches i s (clearScreenBuf i s pos len) := by
  induction len generalizing s pos with
  | zero => exact touches_of_same rfl rfl
  | succ n ih =>
      exact touches_trans (touches_putWord ⟨hlo, by omega⟩)
        (ih (by omega) (by omega))

/-- Cells that are moved. -/
theorem touches_move {i : Nat} {s : State} {dst src size : Nat}
    (hlo : W_TTY_CONSOLE_START i ≤ dst)
    (hhi : dst + size ≤ W_TTY_CONSOLE_START i + W_SHARE) :
    Touches i s (moveScreenBuf i s dst src size) := by
  induction size generalizing s dst src with
  | zero => exact touches_of_same rfl rfl
  | succ n ih =>
      exact touches_trans (touches_putWord ⟨hlo, by omega⟩)
        (ih (by omega) (by omega))

/-- Clearing leaves the consoles alone. -/
@[simp] theorem console_clear (i : Nat) (s : State) (pos len : Nat) :
    (clearScreenBuf i s pos len).console = s.console := by
  induction len generalizing s pos with
  | zero => rfl
  | succ n ih => rw [clearScreenBuf, ih]; rfl

/-- So does moving. -/
@[simp] theorem console_move (i : Nat) (s : State) (dst src size : Nat) :
    (moveScreenBuf i s dst src size).console = s.console := by
  induction size generalizing s dst src with
  | zero => rfl
  | succ n ih => rw [moveScreenBuf, ih]; rfl

/-- So does a refresh. -/
@[simp] theorem console_refresh (s : State) (i : Nat) :
    (doScreenRefresh s i).console = s.console := by
  unfold doScreenRefresh
  split <;> rfl

/-- A refresh writes nothing. -/
@[simp] theorem video_refresh (s : State) (i : Nat) :
    (doScreenRefresh s i).video = s.video := by
  unfold doScreenRefresh
  split <;> rfl

/-- Nothing at all. -/
@[simp] theorem written_refresh (s : State) (i : Nat) :
    (doScreenRefresh s i).written = s.written := by
  unfold doScreenRefresh
  split <;> rfl

/-- It stays in every share. -/
theorem touches_refresh {i j : Nat} {s : State} :
    Touches i s (doScreenRefresh s j) :=
  touches_of_same (video_refresh s j) (written_refresh s j)

/-- The console that is set. -/
@[simp] theorem setConsole_self (s : State) (i : Nat) (con : Console) :
    (setConsole s i con).console i = con :=
  if_pos rfl

/-- The others. -/
theorem setConsole_of_ne (s : State) {i j : Nat} (con : Console)
    (h : j ≠ i) : (setConsole s i con).console j = s.console j :=
  if_neg h

/-- A console set to itself. -/
theorem setConsole_same (s : State) (i : Nat) :
    (setConsole s i (s.console i)).console = s.console := by
  ext1 j
  by_cases hj : j = i
  · rw [hj, setConsole_self]
  · rw [setConsole_of_ne _ _ hj]

/-- The last of two changes counts. -/
theorem setConsole_twice {t : State} (s : State) (i : Nat) (con con' : Console)
    (h : t.console = (setConsole s i con).console) :
    (setConsole t i con').console = (setConsole s i con').console := by
  ext1 j
  by_cases hj : j = i
  · rw [hj, setConsole_self, setConsole_self]
  · rw [setConsole_of_ne _ _ hj, setConsole_of_ne _ _ hj, h,
      setConsole_of_ne _ _ hj]

/-- What holds of every console, when one of them changes. -/
theorem forall_setConsole {P : Nat → Console → Prop} {s t : State} {i : Nat}
    {y : Console} (h : ∀ j < NR_CONSOLES, P j (s.console j)) (hy : P i y)
    (heq : t.console = (setConsole s i y).console) :
    ∀ j < NR_CONSOLES, P j (t.console j) := by
  intro j hj
  rw [heq]
  by_cases hji : j = i
  · rw [hji, setConsole_self]
    exact hy
  · rw [setConsole_of_ne _ _ hji]
    exact h j hj

/-! ## The consoles -/

/-- Start and size of the consoles are those of `init_screen`. -/
def LaidOut (i : Nat) (con : Console) : Prop :=
  con.wConsoleStart = BitVec.ofNat 32 (W_TTY_CONSOLE_START i) ∧
    con.wConsoleSize = BitVec.ofNat 32 W_CONSOLE_SIZE

/-- A character leaves the layout. -/
theorem laidOut_advance {i : Nat} {con : Console} {ch : BitVec 8}
    (h : LaidOut i con) : LaidOut i (advance con ch) := by
  unfold advance
  split
  · exact h
  · split
    · split <;> exact h
    · exact h

/-- So does what follows it. -/
theorem laidOut_settled {i : Nat} {con : Console} {ch : BitVec 8}
    (h : LaidOut i con) : LaidOut i (settled con ch) := by
  unfold settled
  split <;> exact laidOut_advance h

/-- Scrolling moves the screen and nothing else. -/
theorem scrolledUp_eq (con : Console) :
    ∃ b, scrolledUp con = { con with wScreenStart := b } := by
  unfold scrolledUp
  repeat' split
  all_goals exact ⟨_, rfl⟩

/-- Scrolling moves the start of the screen only. -/
theorem scrolledDn_eq (con : Console) :
    ∃ b, scrolledDn con = { con with wScreenStart := b } := by
  unfold scrolledDn
  repeat' split
  all_goals exact ⟨_, rfl⟩

/-- What `scroll_screen` does to the state. -/
theorem scrollScreen_eq {s t : State} {i : Nat} {dir : Int}
    (h : scrollScreen s i dir = .ok t) :
    t.video = s.video ∧ t.written = s.written ∧
      ∃ b, t.console =
        (setConsole s i { s.console i with wScreenStart := b }).console := by
  simp only [scrollScreen, bind_eq_ok, assert_eq_ok, exists_const,
    pure_eq_ok] at h
  obtain ⟨-, rfl⟩ := h
  refine ⟨video_refresh _ i, written_refresh _ i, ?_⟩
  rw [console_refresh]
  by_cases hup : dir = SCROLL_UP
  · obtain ⟨b, hb⟩ := scrolledUp_eq (s.console i)
    exact ⟨b, by rw [if_pos hup, hb]⟩
  · obtain ⟨b, hb⟩ := scrolledDn_eq (s.console i)
    exact ⟨b, by rw [if_neg hup, hb]⟩

/-- A cursor that is on its console lies behind the console's start. -/
theorem start_le_cursor {i : Nat} {con : Console} (hi : i < NR_CONSOLES)
    (hlay : LaidOut i con) (h : ¬ IsFull con) :
    W_TTY_CONSOLE_START i ≤ con.wCursor.toNat := by
  have hle := start_le hi
  rw [IsFull, hlay.1, hlay.2, ge_iff_le, BitVec.not_le, BitVec.lt_def,
    BitVec.toNat_sub, BitVec.toNat_ofNat, BitVec.toNat_ofNat,
    show W_CONSOLE_SIZE = 10922 by decide] at h
  omega

/-- The cell of a character is the cursor's, or the one before it. -/
theorem cell_inShare {i w : Nat} {con : Console} {ch : BitVec 8}
    (hi : i < NR_CONSOLES) (hlay : LaidOut i con) (hnot : ¬ IsFull con)
    (hfit : ch ≠ 0x0A → con.wCursor.toNat <
      W_TTY_CONSOLE_START i + W_SHARE + if ch = 0x08 then 1 else 0)
    (h : cellFor con ch = some w) : InShare i w := by
  have hlo := start_le_cursor hi hlay hnot
  have hle := start_le hi
  unfold cellFor at h
  split at h
  · cases h
  rename_i hnl
  have hcur := hfit hnl
  split at h
  · rename_i hback
    rw [if_pos hback] at hcur
    split at h
    · rename_i hgt
      cases h
      -- the cell before the cursor, which is behind the start
      rw [gt_iff_lt, BitVec.lt_def, hlay.1, BitVec.toNat_ofNat] at hgt
      have hnat : (con.wCursor - 1).toNat = con.wCursor.toNat - 1 := by
        rw [BitVec.toNat_sub, show (1 : BitVec 32).toNat = 1 from rfl]
        omega
      rw [InShare, hnat]
      omega
    · cases h
  · rename_i hback
    rw [if_neg hback] at hcur
    cases h
    exact ⟨hlo, hcur⟩

/-- A character changes its console only. -/
theorem console_putChar (s : State) (i : Nat) (ch : BitVec 8) :
    (putChar s i ch).console =
      (setConsole s i (advance (s.console i) ch)).console := by
  unfold putChar putCell
  cases cellFor (s.console i) ch <;> rfl

/-- It stays in the share when its cell is there. -/
theorem touches_putChar {i : Nat} {s : State} {ch : BitVec 8}
    (h : ∀ w, cellFor (s.console i) ch = some w → InShare i w) :
    Touches i s (putChar s i ch) := by
  have hcell : Touches i s (putCell s i ch) := by
    unfold putCell
    cases hc : cellFor (s.console i) ch with
    | none => exact touches_of_same rfl rfl
    | some w => exact touches_putWord (h w hc)
  exact touches_trans hcell (touches_setConsole _)

/-- The cursor of a console that starts again is in the last row of its first
    screen. -/
theorem restarted_cursor {i : Nat} {con : Console} (hi : i < NR_CONSOLES)
    (hlay : LaidOut i con) :
    W_TTY_CONSOLE_START i ≤ (restarted con).wCursor.toNat ∧
      (restarted con).wCursor.toNat < W_TTY_CONSOLE_START i + SCR_SIZE := by
  have hle := start_le hi
  obtain ⟨x, hx, hcur⟩ : ∃ x : BitVec 32, x.toNat < 80 ∧
      (restarted con).wCursor = con.wConsoleStart + 1920#32 + x := by
    refine ⟨(con.wCursor - con.wConsoleStart) % BitVec.ofNat 32 SCR_WIDTH,
      ?_, rfl⟩
    rw [BitVec.toNat_umod]
    exact Nat.mod_lt _ (by decide)
  have hsize : SCR_SIZE = 2000 := rfl
  rw [hcur, hlay.1, BitVec.toNat_add, BitVec.toNat_add, BitVec.toNat_ofNat,
    BitVec.toNat_ofNat]
  omega

/-- A console that starts again writes only its first rows. -/
theorem touches_restart {i : Nat} {s : State} (hi : i < NR_CONSOLES)
    (hlay : LaidOut i (s.console i)) : Touches i s (restart s i) := by
  have hle := start_le hi
  have hshare : W_SHARE = 5461 := by decide
  have hstart : (s.console i).wConsoleStart.toNat = W_TTY_CONSOLE_START i := by
    rw [hlay.1, BitVec.toNat_ofNat]
    omega
  obtain ⟨hlo, hhi⟩ := restarted_cursor hi hlay
  have hsize : SCR_SIZE = 2000 := rfl
  have hwidth : SCR_WIDTH = 80 := rfl
  refine touches_trans (touches_move (Nat.le_of_eq hstart.symm) ?_)
    (touches_trans (touches_setConsole (restarted (s.console i)))
      (touches_clear hlo ?_))
  · omega
  · omega

/-- The consoles once the character is on and a full one has started again. -/
theorem console_wrap_putChar (s : State) (i : Nat) (ch : BitVec 8) :
    (wrapConsole (putChar s i ch) i).console =
      (setConsole s i (settled (s.console i) ch)).console := by
  have hput := console_putChar s i ch
  have hself : (putChar s i ch).console i = advance (s.console i) ch := by
    rw [hput, setConsole_self]
  unfold wrapConsole settled
  rw [hself]
  by_cases hfull : IsFull (advance (s.console i) ch)
  · rw [if_pos hfull, if_pos hfull, restart, console_clear]
    rw [hself]
    exact setConsole_twice _ _ _ _ (by rw [console_move, hput])
  · rw [if_neg hfull, if_neg hfull, hput]

/-- The cursor's row has room to be cleared. -/
def HasRoom (i : Nat) (con : Console) : Prop :=
  W_TTY_CONSOLE_START i ≤ con.wCursor.toNat ∧
    con.wCursor.toNat + SCR_WIDTH ≤ W_TTY_CONSOLE_START i + W_SHARE

/-- Scrolling the cursor onto the screen clears its row, again and again. -/
theorem touches_scrollLoop {i n : Nat} {s t : State}
    (h : scrollLoop i n s = .ok t)
    (hroom : OffScreen (s.console i) → HasRoom i (s.console i)) :
    Touches i s t ∧ ∃ b, t.console =
      (setConsole s i { s.console i with wScreenStart := b }).console := by
  induction n generalizing s with
  | zero => cases h
  | succ n ih =>
      unfold scrollLoop at h
      by_cases hoff : OffScreen (s.console i)
      · simp only [if_pos hoff, bind_eq_ok] at h
        obtain ⟨u, hu, h⟩ := h
        obtain ⟨hvid, hwr, b, hcon⟩ := scrollScreen_eq hu
        have hself : u.console i =
            { s.console i with wScreenStart := b } := by
          rw [hcon, setConsole_self]
        -- the cursor stays, so there is room in every round
        have hr : HasRoom i (s.console i) := hroom hoff
        have hcur : (u.console i).wCursor = (s.console i).wCursor := by
          rw [hself]
        rw [hcur] at h
        have hclear := touches_clear (s := u) hr.1 hr.2
        have hroom' : HasRoom i ((clearScreenBuf i u
            (s.console i).wCursor.toNat SCR_WIDTH).console i) := by
          rw [console_clear, HasRoom, hcur]
          exact hr
        obtain ⟨hrest, b', hb'⟩ := ih h (fun _ => hroom')
        refine ⟨touches_trans (touches_of_same hvid hwr)
          (touches_trans hclear hrest), b', ?_⟩
        rw [hb', console_clear, hself]
        exact setConsole_twice _ _ _ _ (by rw [console_clear, hcon])
      · rw [if_neg hoff, pure_eq_ok] at h
        subst h
        exact ⟨touches_of_same rfl rfl, (s.console i).wScreenStart,
          (setConsole_same s i).symm⟩

/-- **A CHARACTER STAYS IN ITS CONSOLE** when it fits. -/
theorem touches_print {fuel i : Nat} {s t : State} {ch : BitVec 8}
    (hi : i < NR_CONSOLES) (hlay : LaidOut i (s.console i))
    (hfit : Fits s (.print i ch))
    (h : consolePrintChar fuel s i ch = .ok t) :
    Touches i s t ∧ ∃ con, LaidOut i con ∧
      t.console = (setConsole s i con).console := by
  simp only [consolePrintChar, bind_eq_ok, assert_eq_ok, exists_const,
    pure_eq_ok] at h
  obtain ⟨hbefore, hnot, u, hu, rfl⟩ := h
  have hcell : ∀ w, cellFor (s.console i) ch = some w → InShare i w :=
    fun w hw => cell_inShare hi hlay hbefore hfit.1 hw
  have hcon := console_wrap_putChar s i ch
  have hself : (wrapConsole (putChar s i ch) i).console i =
      settled (s.console i) ch := by
    rw [hcon, setConsole_self]
  have hset : LaidOut i (settled (s.console i) ch) := laidOut_settled hlay
  have hadv : LaidOut i ((putChar s i ch).console i) := by
    rw [console_putChar, setConsole_self]
    exact laidOut_advance hlay
  have hwrap : Touches i (putChar s i ch) (wrapConsole (putChar s i ch) i) := by
    unfold wrapConsole
    split
    · exact touches_restart hi hadv
    · exact touches_of_same rfl rfl
  rw [hself] at hnot
  obtain ⟨hloop, b, hb⟩ := touches_scrollLoop hu (by
    rw [hself]
    exact fun hoff => ⟨start_le_cursor hi hset hnot, hfit.2 hoff⟩)
  refine ⟨touches_trans (touches_putChar hcell)
    (touches_trans hwrap (touches_trans hloop touches_refresh)),
    { settled (s.console i) ch with wScreenStart := b }, hset, ?_⟩
  rw [console_refresh, hb, hself]
  exact setConsole_twice _ _ _ _ hcon

/-! ## Runs -/

/-- The consoles lie where `init_screen` put them, and every word was written
    by its own console. -/
structure Inv (s : State) : Prop where
  laid : ∀ i < NR_CONSOLES, LaidOut i (s.console i)
  own : ∀ p ∈ s.written, p.1 < NR_CONSOLES ∧ InShare p.1 p.2

/-- A step in one share keeps the invariant. -/
theorem inv_touches {i : Nat} {s t : State} {con : Console}
    (hi : i < NR_CONSOLES) (h : Inv s) (hcon : LaidOut i con)
    (ht : Touches i s t) (heq : t.console = (setConsole s i con).console) :
    Inv t := by
  constructor
  · exact forall_setConsole (P := LaidOut) h.laid hcon heq
  · intro p hp
    obtain ⟨ws, hw, hin, -⟩ := ht
    rw [hw, List.mem_append] at hp
    rcases hp with hp | hp
    · obtain ⟨w, hmem, rfl⟩ := List.mem_map.mp hp
      exact ⟨hi, hin w hmem⟩
    · exact h.own p hp

/-- A switch changes no console. -/
theorem switchConsole_same (s : State) (n : Int) :
    (switchConsole s n).console = s.console ∧
      (switchConsole s n).written = s.written ∧
      (switchConsole s n).video = s.video := by
  unfold switchConsole doScreenRefresh
  repeat' split
  all_goals exact ⟨rfl, rfl, rfl⟩

/-- **STEP**: what a step that fits writes, it writes to its own console. -/
theorem inv_step {s t : State} {e : Event} (h : Inv s) (hfit : Fits s e)
    (hstep : Step s e t) :
    Inv t ∧ ∀ w, t.video w ≠ s.video w →
      ∃ i ch, e = .print i ch ∧ InShare i w := by
  cases hstep with
  | @print fuel _ _ i ch hi hcall =>
      obtain ⟨ht, con, hcon, heq⟩ := touches_print hi (h.laid i hi) hfit hcall
      refine ⟨inv_touches hi h hcon ht heq, ?_⟩
      intro w hw
      obtain ⟨ws, -, hin, hout⟩ := ht
      by_cases hmem : w ∈ ws
      · exact ⟨i, ch, rfl, hin w hmem⟩
      · exact absurd (hout w hmem) hw
  | @scroll _ _ i dir hi hcall =>
      obtain ⟨hvid, hwr, b, heq⟩ := scrollScreen_eq hcall
      have hlay : LaidOut i { s.console i with wScreenStart := b } :=
        h.laid i hi
      refine ⟨inv_touches hi h hlay (touches_of_same hvid hwr) heq, ?_⟩
      intro w hw
      exact absurd (congrFun hvid w) hw
  | switch =>
      obtain ⟨hcon, hwr, hvid⟩ := switchConsole_same s _
      refine ⟨⟨fun i hi => ?_, fun p hp => ?_⟩, fun w hw => ?_⟩
      · rw [hcon]; exact h.laid i hi
      · rw [hwr] at hp; exact h.own p hp
      · exact absurd (congrFun hvid w) hw

/-- The consoles are laid out at boot. -/
theorem inv_boot {s : State} (h : Boot s) : Inv s := by
  obtain ⟨⟨dispPos, hcon⟩, hw⟩ := h
  refine ⟨fun i hi => ?_, fun p hp => ?_⟩
  · rw [hcon i hi]
    exact ⟨rfl, rfl⟩
  · rw [hw] at hp
    cases hp

/-- **RUN**: the invariant holds in every state that fitting steps reach. -/
theorem inv_reach {s : State} (h : Reach Boot Step Fits s) : Inv s :=
  reach_invariant Inv (fun _ => inv_boot)
    (fun _ _ _ hs hfit hstep => (inv_step hs hfit hstep).1) h

/-- **CONSOLES DO NOT OVERLAP**, in every run whose characters and cleared
    rows fit: each word written for a console lies in its share, so inside
    video memory and in no other share, and a step changes only words of the
    console it prints on. -/
theorem consoles_apart {s : State} (h : Reach Boot Step Fits s) :
    (∀ p ∈ s.written, InShare p.1 p.2 ∧ p.2 < VIDEO_MEM_SIZE / 2 ∧
        ∀ j < NR_CONSOLES, j ≠ p.1 → ¬ InShare j p.2) ∧
      ∀ e t, Fits s e → Step s e t → ∀ w, t.video w ≠ s.video w →
        ∃ i ch, e = .print i ch ∧ InShare i w := by
  have hinv : Inv s := inv_reach h
  constructor
  · intro p hp
    obtain ⟨hi, hin⟩ := hinv.own p hp
    exact ⟨hin, share_apart hi hin⟩
  · intro e t hfit hstep
    exact (inv_step hinv hfit hstep).2

/-! ## Output that fits and output that does not -/

/-- Print a text on one console. -/
def printAll (fuel i : Nat) : State → List (BitVec 8) → Except Halt State
  | s, [] => pure s
  | s, ch :: chs => do
      let s ← consolePrintChar fuel s i ch
      printAll fuel i s chs

/-- A text is a run. -/
theorem reach_printAll {fuel i : Nat} {chs : List (BitVec 8)} {s t : State}
    (hi : i < NR_CONSOLES) (hs : Reach Boot Step free s)
    (h : printAll fuel i s chs = .ok t) : Reach Boot Step free t := by
  induction chs generalizing s with
  | nil =>
      rw [printAll, pure_eq_ok] at h
      rwa [← h]
  | cons ch chs ih =>
      simp only [printAll, bind_eq_ok] at h
      obtain ⟨u, hu, h⟩ := h
      exact ih (.next hs trivial (.print hi hu)) h

/-- The consoles at boot, with an empty screen. -/
def bootScreen : State where
  console := initConsole 0
  currentConsole := 0
  crtCursor := 0
  crtStart := 0
  video := fun _ => 0
  written := []

/-- The screen at boot. -/
theorem bootScreen_boot : Boot bootScreen := ⟨⟨0, fun _ _ => rfl⟩, rfl⟩

/-- One character on an empty console fits. -/
theorem consoles_apart_print :
    ∃ s, Reach Boot Step Fits s ∧ (1, 5461) ∈ s.written ∧
      (∀ p ∈ s.written, InShare p.1 p.2 ∧ p.2 < VIDEO_MEM_SIZE / 2 ∧
        ∀ j < NR_CONSOLES, j ≠ p.1 → ¬ InShare j p.2) ∧
      ∀ e t, Fits s e → Step s e t → ∀ w, t.video w ≠ s.video w →
        ∃ i ch, e = .print i ch ∧ InShare i w := by
  have hfit : Fits bootScreen (.print 1 0x41) := by
    constructor <;> decide
  obtain ⟨t, ht⟩ : ∃ t, consolePrintChar 1 bootScreen 1 0x41 = .ok t :=
    ⟨_, rfl⟩
  have hwritten : (consolePrintChar 1 bootScreen 1 0x41).map
      (fun s => s.written) = .ok [(1, 5461)] := rfl
  rw [ht] at hwritten
  have hw : t.written = [(1, 5461)] := Except.ok.inj hwritten
  have hmem : (1, 5461) ∈ t.written := by
    rw [hw]
    exact List.mem_singleton_self _
  have hreach : Reach Boot Step Fits t :=
    .next (.start bootScreen_boot) hfit (.print (by decide) ht)
  exact ⟨t, hreach, hmem, consoles_apart hreach⟩

set_option maxRecDepth 20000 in
/-- **THE OVERLAP**: 68 newlines on console 0 clear a row that reaches into
    the cells of console 1. -/
theorem consoles_overlap :
    ∃ s, Reach Boot Step free s ∧ (0, 5461) ∈ s.written ∧
      ¬ InShare 0 5461 ∧ InShare 1 5461 := by
  have hrun : (printAll 2 0 bootScreen (List.replicate 68 0x0A)).map
      (fun s => decide ((0, 5461) ∈ s.written)) = .ok true := by
    decide +kernel
  cases hs : printAll 2 0 bootScreen (List.replicate 68 0x0A) with
  | error e =>
      rw [hs] at hrun
      cases hrun
  | ok s =>
      rw [hs] at hrun
      have hmem : (0, 5461) ∈ s.written :=
        of_decide_eq_true (Except.ok.inj hrun)
      have hreach : Reach Boot Step free s :=
        reach_printAll (by decide) (.start bootScreen_boot) hs
      exact ⟨s, hreach, hmem, by decide, by decide⟩

end KosConsole
