import Kos.FlatMemoryProofs
import Kos.RingProofs
import Kos.ConsoleProofs

/-! # The line discipline

    `tty_do_read`, `tty_key_enqueue` and `tty_dev_write` of `task/task_tty.c`
    on one tty, with its ring of keys, the reader's memory and its console.
    The line a user types is edited in the reader's buffer.

    * `lineOf` edits a list of characters the same way, up to the first newline
      or a full line;
    * between the request and the answer the counters and the buffer are those
      of the edited line, and there is one answer when it is complete
      (`disciplined_run`). -/

namespace KosTty

open FlatMemory KosKernel KosConsole RingBuffer GuardedRun

/-- The characters that the ring of a terminal holds. -/
def TTY_QUEUE_SIZE : Nat := 256

/-! ## State -/

/-- What TTY sends, and to whom. -/
inductive Msg where
  | suspendProc (dest cnt : Int)
  | resumeProc (dest procNr cnt : Int)
  deriving DecidableEq, Repr

/-- A `DEV_READ` message. -/
structure DevRead where
  source : Int
  procNr : Int
  buf : Addr
  cnt : Int

/-- `TTY`; the pointers into `key_buf` are indices. -/
structure Tty where
  keyBuf : Buffer (BitVec 32)
  ttyCaller : Int
  ttyProcnr : Int
  ttyReqBuf : Addr
  ttyLeftCnt : Int
  ttyTransCnt : Int

/-- One terminal with its reader and the consoles. -/
structure Sys where
  tty : Tty
  /-- the consoles -/
  screen : State
  mem : Mem
  sent : List Msg

/-! ## The functions -/

/-- `tty_do_read`. -/
def ttyDoRead (T : Table) (s : Sys) (msg : DevRead) : Except Halt Sys := do
  let la ← procVa2la T msg.procNr msg.buf
  let tty : Tty :=
    { s.tty with
      ttyCaller := msg.source
      ttyProcnr := msg.procNr
      ttyReqBuf := la
      ttyLeftCnt := msg.cnt
      ttyTransCnt := 0 }
  pure { s with tty := tty, sent := s.sent ++ [.suspendProc msg.source msg.cnt] }

/-- `tty_key_enqueue`. -/
def ttyKeyEnqueue (tty : Tty) (key : BitVec 32) : Tty :=
  if tty.keyBuf.count < TTY_QUEUE_SIZE then
    { tty with keyBuf := put TTY_QUEUE_SIZE tty.keyBuf key }
  else tty

/-- `ch >= ' ' && ch <= '~'` -/
def Printable (ch : Byte) : Prop := 0x20 ≤ ch ∧ ch ≤ 0x7E

instance (ch : Byte) : Decidable (Printable ch) :=
  inferInstanceAs (Decidable (_ ∧ _))

/-- A character for the reader: it is echoed and goes into the buffer, or takes
    one out. -/
def takeChar (fuel nr : Nat) (s : Sys) (ch : Byte) : Except Halt Sys :=
  if Printable ch then do
    let screen ← consolePrintChar fuel s.screen nr ch
    let p := s.tty.ttyReqBuf + BitVec.ofInt 32 s.tty.ttyTransCnt
    let tty : Tty :=
      { s.tty with
        ttyTransCnt := s.tty.ttyTransCnt + 1
        ttyLeftCnt := s.tty.ttyLeftCnt - 1 }
    pure { s with tty := tty, screen := screen, mem := Function.update s.mem p ch }
  else if ch = 0x08 ∧ s.tty.ttyTransCnt ≠ 0 then do
    let screen ← consolePrintChar fuel s.screen nr ch
    let tty : Tty :=
      { s.tty with
        ttyTransCnt := s.tty.ttyTransCnt - 1
        ttyLeftCnt := s.tty.ttyLeftCnt + 1 }
    pure { s with tty := tty, screen := screen }
  else pure s

/-- The answer, when the line is complete. -/
def finishLine (fuel nr : Nat) (s : Sys) (ch : Byte) : Except Halt Sys :=
  if ch = 0x0A ∨ s.tty.ttyLeftCnt = 0 then do
    let screen ← consolePrintChar fuel s.screen nr 0x0A
    let msg := Msg.resumeProc s.tty.ttyCaller s.tty.ttyProcnr s.tty.ttyTransCnt
    pure { s with
      tty := { s.tty with ttyLeftCnt := 0 }
      screen := screen
      sent := s.sent ++ [msg] }
  else pure s

/-- `char ch = *(tty->key_buf_tail);` -/
def charOf (key : BitVec 32) : Byte := key.setWidth 8

/-- One round of the loop in `tty_dev_write`. -/
def ttyDevWriteRound (fuel nr : Nat) (s : Sys) : Except Halt Sys := do
  let (key, keyBuf) := get TTY_QUEUE_SIZE s.tty.keyBuf
  let ch := charOf key
  let s := { s with tty := { s.tty with keyBuf := keyBuf } }
  if s.tty.ttyLeftCnt ≠ 0 then do
    let s ← takeChar fuel nr s ch
    finishLine fuel nr s ch
  else pure s

/-- `tty_dev_write`, with a bound on the rounds. -/
def ttyDevWrite (fuel nr : Nat) : Nat → Sys → Except Halt Sys
  | 0, _ => .error .spin
  | n + 1, s =>
      if s.tty.keyBuf.count ≠ 0 then do
        let s ← ttyDevWriteRound fuel nr s
        ttyDevWrite fuel nr n s
      else pure s

/-! ## Runs -/

/-- The character that is next. -/
def nextChar (s : Sys) : Byte := charOf (get TTY_QUEUE_SIZE s.tty.keyBuf).1

/-- What happens behind a request: a key comes, a round is made, and other
    processes use the consoles.  A run records the keys that were put into the
    ring, from those that were there, and the characters taken out. -/
inductive Run (nr : Nat) (s₀ : Sys) (keys₀ : List (BitVec 32)) :
    Sys → List (BitVec 32) → List Byte → Prop
  | request : Run nr s₀ keys₀ s₀ keys₀ []
  | enqueue {s : Sys} {keys : List (BitVec 32)} {chars : List Byte}
      (key : BitVec 32) (h : Run nr s₀ keys₀ s keys chars) :
      Run nr s₀ keys₀ { s with tty := ttyKeyEnqueue s.tty key }
        (if s.tty.keyBuf.count < TTY_QUEUE_SIZE then keys ++ [key] else keys)
        chars
  | round {s t : Sys} {keys : List (BitVec 32)} {chars : List Byte} {fuel : Nat}
      (h : Run nr s₀ keys₀ s keys chars) (hkeys : s.tty.keyBuf.count ≠ 0)
      (hround : ttyDevWriteRound fuel nr s = .ok t) :
      Run nr s₀ keys₀ t keys
        (chars ++ [nextChar s])
  | screen {s : Sys} {keys : List (BitVec 32)} {chars : List Byte}
      {e : Event} {screen : State} (h : Run nr s₀ keys₀ s keys chars)
      (hstep : Step s.screen e screen) :
      Run nr s₀ keys₀ { s with screen := screen } keys chars

/-! ## Lines -/

/-- Edit one character. -/
def edit (text : List Byte) (ch : Byte) : List Byte :=
  if Printable ch then text ++ [ch]
  else if ch = 0x08 then text.dropLast
  else text

/-- A line of at most `n` characters and whether it is complete; nothing is
    edited behind its end. -/
def typed (n : Int) (text : List Byte × Bool) (ch : Byte) : List Byte × Bool :=
  if text.2 then text
  else
    (edit text.1 ch, decide (ch = 0x0A ∨ ((edit text.1 ch).length : Int) = n))

/-- The line that the characters make, and whether it is complete. -/
def lineOf (n : Int) (chars : List Byte) : List Byte × Bool :=
  chars.foldl (typed n) ([], false)

/-- The line after one more character. -/
theorem lineOf_snoc (n : Int) (chars : List Byte) (ch : Byte) :
    lineOf n (chars ++ [ch]) = typed n (lineOf n chars) ch := by
  rw [lineOf, List.foldl_append]
  rfl

/-! ## What a round does -/

section Rounds

variable {fuel nr : Nat} {s t : Sys} {ch : Byte}

/-- The counters after a character. -/
def counted (tty : Tty) (ch : Byte) : Tty :=
  if Printable ch then
    { tty with
      ttyTransCnt := tty.ttyTransCnt + 1
      ttyLeftCnt := tty.ttyLeftCnt - 1 }
  else if ch = 0x08 ∧ tty.ttyTransCnt ≠ 0 then
    { tty with
      ttyTransCnt := tty.ttyTransCnt - 1
      ttyLeftCnt := tty.ttyLeftCnt + 1 }
  else tty

/-- The reader's memory after it. -/
def storedChar (s : Sys) (ch : Byte) : Mem :=
  if Printable ch then
    Function.update s.mem
      (s.tty.ttyReqBuf + BitVec.ofInt 32 s.tty.ttyTransCnt) ch
  else s.mem

/-- The console is one of a run, and stays one. -/
def OnRun (s : Sys) : Prop := Reach Boot Step free s.screen

/-- Printing stays within the reachable screens. -/
theorem reach_print {screen screen' : State} (hnr : nr < NR_CONSOLES)
    (h : Reach Boot Step free screen)
    (hprint : consolePrintChar fuel screen nr ch = .ok screen') :
    Reach Boot Step free screen' :=
  .next h trivial (.print hnr hprint)

/-- The reader takes the character. -/
def Taken (tty : Tty) (ch : Byte) : Prop :=
  Printable ch ∨ ch = 0x08 ∧ tty.ttyTransCnt ≠ 0

instance (tty : Tty) (ch : Byte) : Decidable (Taken tty ch) :=
  inferInstanceAs (Decidable (_ ∨ _))

/-- What becomes of a character read, case by case. -/
theorem takeChar_eq (fuel nr : Nat) (s : Sys) (ch : Byte) :
    takeChar fuel nr s ch =
      if Taken s.tty ch then do
        let screen ← consolePrintChar fuel s.screen nr ch
        pure { s with
          tty := counted s.tty ch, screen := screen, mem := storedChar s ch }
      else pure { s with tty := counted s.tty ch, mem := storedChar s ch } := by
  rw [takeChar, counted, storedChar]
  by_cases hprint : Printable ch
  · rw [if_pos hprint, if_pos (show Taken s.tty ch from Or.inl hprint),
      if_pos hprint, if_pos hprint]
  · rw [if_neg hprint, if_neg hprint, if_neg hprint]
    by_cases hback : ch = 0x08 ∧ s.tty.ttyTransCnt ≠ 0
    · rw [if_pos hback, if_pos hback,
        if_pos (show Taken s.tty ch from Or.inr hback)]
    · rw [if_neg hback, if_neg hback,
        if_neg (show ¬ Taken s.tty ch from fun h => h.elim hprint hback)]

/-- What a taken character changes. -/
theorem takeChar_ok (hnr : nr < NR_CONSOLES)
    (h : takeChar fuel nr s ch = .ok t) :
    t.tty = counted s.tty ch ∧ t.mem = storedChar s ch ∧ t.sent = s.sent ∧
      (OnRun s → OnRun t) := by
  rw [takeChar_eq] at h
  by_cases htaken : Taken s.tty ch
  · simp only [if_pos htaken, bind_eq_ok, pure_eq_ok] at h
    obtain ⟨screen, hscreen, rfl⟩ := h
    exact ⟨rfl, rfl, rfl, fun hs => reach_print hnr hs hscreen⟩
  · rw [if_neg htaken, pure_eq_ok] at h
    subst h
    exact ⟨rfl, rfl, rfl, id⟩

/-- A line is complete. -/
def Done (tty : Tty) (ch : Byte) : Prop := ch = 0x0A ∨ tty.ttyLeftCnt = 0

instance (tty : Tty) (ch : Byte) : Decidable (Done tty ch) :=
  inferInstanceAs (Decidable (_ ∨ _))

/-- The end of a line, case by case. -/
theorem finishLine_eq (fuel nr : Nat) (s : Sys) (ch : Byte) :
    finishLine fuel nr s ch =
      if Done s.tty ch then do
        let screen ← consolePrintChar fuel s.screen nr 0x0A
        let msg := Msg.resumeProc s.tty.ttyCaller s.tty.ttyProcnr s.tty.ttyTransCnt
        pure { s with
          tty := { s.tty with ttyLeftCnt := 0 }
          screen := screen
          sent := s.sent ++ [msg] }
      else pure s := rfl

/-- What the end of a line changes. -/
theorem finishLine_ok (hnr : nr < NR_CONSOLES)
    (h : finishLine fuel nr s ch = .ok t) :
    t.tty = { s.tty with
      ttyLeftCnt := if Done s.tty ch then 0 else s.tty.ttyLeftCnt } ∧
      t.mem = s.mem ∧
      t.sent = s.sent ++ (if Done s.tty ch then
        [.resumeProc s.tty.ttyCaller s.tty.ttyProcnr s.tty.ttyTransCnt]
        else []) ∧
      (OnRun s → OnRun t) := by
  rw [finishLine_eq] at h
  by_cases hdone : Done s.tty ch
  · simp only [if_pos hdone, bind_eq_ok, pure_eq_ok] at h
    obtain ⟨screen, hscreen, rfl⟩ := h
    rw [if_pos hdone, if_pos hdone]
    exact ⟨rfl, rfl, rfl, fun hs => reach_print hnr hs hscreen⟩
  · rw [if_neg hdone, pure_eq_ok] at h
    subst h
    rw [if_neg hdone, if_neg hdone, List.append_nil]
    exact ⟨rfl, rfl, rfl, id⟩

/-- The state when a key is out of the ring. -/
def dequeued (s : Sys) : Sys :=
  { s with tty := { s.tty with keyBuf := (get TTY_QUEUE_SIZE s.tty.keyBuf).2 } }

/-- A round of `tty_dev_write` in its two pieces. -/
theorem round_eq (fuel nr : Nat) (s : Sys) : ttyDevWriteRound fuel nr s =
    if s.tty.ttyLeftCnt ≠ 0 then do
      let t ← takeChar fuel nr (dequeued s) (nextChar s)
      finishLine fuel nr t (nextChar s)
    else pure (dequeued s) := rfl

/-- A round without a reader only takes the key. -/
theorem round_idle (hleft : s.tty.ttyLeftCnt = 0) :
    ttyDevWriteRound fuel nr s = .ok (dequeued s) := by
  rw [round_eq, if_neg (by rw [hleft]; decide)]
  rfl

/-- A round while the line is being read. -/
theorem round_reading (hleft : s.tty.ttyLeftCnt ≠ 0) :
    ttyDevWriteRound fuel nr s = .ok t ↔
      ∃ u, takeChar fuel nr (dequeued s) (nextChar s) = .ok u ∧
        finishLine fuel nr u (nextChar s) = .ok t := by
  rw [round_eq, if_pos hleft, bind_eq_ok]

/-- The counters do not touch the key buffer nor the request. -/
theorem counted_keeps (tty : Tty) (ch : Byte) :
    (counted tty ch).keyBuf = tty.keyBuf ∧
      (counted tty ch).ttyCaller = tty.ttyCaller ∧
      (counted tty ch).ttyProcnr = tty.ttyProcnr ∧
      (counted tty ch).ttyReqBuf = tty.ttyReqBuf := by
  rw [counted]
  split
  · exact ⟨rfl, rfl, rfl, rfl⟩
  · split <;> exact ⟨rfl, rfl, rfl, rfl⟩

/-- The counters when a key is out of the ring and edited. -/
def edited (s : Sys) : Tty := counted (dequeued s).tty (nextChar s)

/-- **A ROUND OF A READER**: the character is edited, and the line answered
    when it is complete. -/
theorem reading_ok (hnr : nr < NR_CONSOLES) (hleft : s.tty.ttyLeftCnt ≠ 0)
    (h : ttyDevWriteRound fuel nr s = .ok t) :
    t.tty = { edited s with
      ttyLeftCnt :=
        if Done (edited s) (nextChar s) then 0 else (edited s).ttyLeftCnt } ∧
      t.mem = storedChar s (nextChar s) ∧
      t.sent = s.sent ++ (if Done (edited s) (nextChar s) then
        [.resumeProc s.tty.ttyCaller s.tty.ttyProcnr (edited s).ttyTransCnt]
        else []) ∧
      (OnRun s → OnRun t) := by
  obtain ⟨u, htake, hfinish⟩ := (round_reading hleft).mp h
  obtain ⟨htty, hmem, hsent, hrun⟩ := takeChar_ok hnr htake
  obtain ⟨htty', hmem', hsent', hrun'⟩ := finishLine_ok hnr hfinish
  obtain ⟨-, hcaller, hprocnr, -⟩ := counted_keeps (dequeued s).tty (nextChar s)
  rw [htty] at htty' hsent'
  rw [hcaller, hprocnr, hsent] at hsent'
  exact ⟨htty', hmem'.trans hmem, hsent', fun hs => hrun' (hrun hs)⟩

end Rounds

/-! ## What a character does to the line -/

section Edits

variable {n : Int} {tty : Tty} {s : Sys} {la : Addr} {text : List Byte}
  {ch : Byte}

/-- A character makes the text longer by at most one. -/
theorem length_edit (text : List Byte) (ch : Byte) :
    (edit text ch).length ≤ text.length + 1 := by
  rw [edit]
  split
  · exact Nat.le_of_eq List.length_append
  · split
    · rw [List.length_dropLast]
      omega
    · omega

/-- The counters are those of the edited line, and their sum stays. -/
theorem counted_edit (tty : Tty) (h : tty.ttyTransCnt = text.length)
    (ch : Byte) :
    (counted tty ch).ttyTransCnt = (edit text ch).length ∧
      (counted tty ch).ttyTransCnt + (counted tty ch).ttyLeftCnt =
        tty.ttyTransCnt + tty.ttyLeftCnt := by
  rw [counted, edit]
  by_cases hprint : Printable ch
  · rw [if_pos hprint, if_pos hprint, List.length_append,
      List.length_singleton]
    dsimp only
    omega
  · rw [if_neg hprint, if_neg hprint]
    by_cases hback : ch = 0x08
    · rw [if_pos hback, List.length_dropLast]
      by_cases hempty : tty.ttyTransCnt = 0
      · rw [if_neg fun hcon => hcon.2 hempty]
        omega
      · rw [if_pos ⟨hback, hempty⟩]
        dsimp only
        omega
    · rw [if_neg fun hcon => hback hcon.1, if_neg hback]
      exact ⟨h, rfl⟩

/-- The buffer starts with the line. -/
def HasLine (mem : Mem) (la : Addr) (text : List Byte) : Prop :=
  ∀ j (h : j < text.length), mem (la + BitVec.ofNat 32 j) = text[j]

/-- The place of the next character. -/
theorem next_place (hbuf : s.tty.ttyReqBuf = la)
    (htrans : s.tty.ttyTransCnt = text.length) :
    s.tty.ttyReqBuf + BitVec.ofInt 32 s.tty.ttyTransCnt =
      la + BitVec.ofNat 32 text.length := by
  rw [hbuf, htrans, BitVec.ofInt_natCast]

/-- A stored character is put behind the line. -/
theorem hasLine_stored (hbuf : s.tty.ttyReqBuf = la)
    (htrans : s.tty.ttyTransCnt = text.length)
    (hlen : text.length < 2147483648) (h : HasLine s.mem la text) (ch : Byte) :
    HasLine (storedChar s ch) la (edit text ch) := by
  intro j hj
  have hshort := length_edit text ch
  rw [storedChar, next_place hbuf htrans]
  rw [edit] at hj
  simp only [edit]
  by_cases hprint : Printable ch
  · rw [if_pos hprint] at hj ⊢
    simp only [if_pos hprint]
    rw [List.length_append, List.length_singleton] at hj
    by_cases hlast : j = text.length
    · subst hlast
      rw [Function.update_self]
      simp
    · have hother : la + BitVec.ofNat 32 j ≠ la + BitVec.ofNat 32 text.length := by
        intro heq
        exact hlast (offset_inj (by omega) (by omega) heq)
      rw [Function.update_of_ne hother, h j (by omega),
        List.getElem_append_left (by omega)]
  · rw [if_neg hprint] at hj ⊢
    simp only [if_neg hprint]
    by_cases hback : ch = 0x08
    · rw [if_pos hback, List.length_dropLast] at hj
      simp only [if_pos hback]
      rw [List.getElem_dropLast]
      exact h j (by omega)
    · rw [if_neg hback] at hj
      simp only [if_neg hback]
      exact h j hj

/-- Nothing else is written. -/
theorem storedChar_out {x : Addr} (hbuf : s.tty.ttyReqBuf = la)
    (htrans : s.tty.ttyTransCnt = text.length)
    (hx : x ≠ la + BitVec.ofNat 32 text.length) (ch : Byte) :
    storedChar s ch x = s.mem x := by
  rw [storedChar, next_place hbuf htrans]
  split
  · exact Function.update_of_ne hx _ _
  · rfl

/-- A newline or a full line, by the counters. -/
theorem done_iff (tty : Tty) (ch : Byte) (h : tty.ttyTransCnt = text.length)
    (hsum : tty.ttyTransCnt + tty.ttyLeftCnt = n) :
    Done (counted tty ch) ch ↔ (typed n (text, false) ch).2 = true := by
  obtain ⟨hlen, hkept⟩ := counted_edit tty h ch
  have hfull : (counted tty ch).ttyLeftCnt = 0 ↔
      ((edit text ch).length : Int) = n := by omega
  rw [Done, hfull]
  exact decide_eq_true_iff.symm

end Edits

/-! ## The line and its counters -/

section Discipline

variable {fuel nr : Nat} {T : Table} {msg : DevRead} {la : Addr}
  {before s t : Sys} {keys : List (BitVec 32)} {chars : List Byte}

/-- The state behind a request that came in the state `before`, when `keys` were
    let in and `chars` taken out. -/
structure Disciplined (msg : DevRead) (la : Addr) (before s : Sys)
    (keys : List (BitVec 32)) (chars : List Byte) : Prop where
  caller : s.tty.ttyCaller = msg.source
  procnr : s.tty.ttyProcnr = msg.procNr
  reqBuf : s.tty.ttyReqBuf = la
  /-- the ring holds the keys that are not taken yet -/
  in_order : ∃ pending, Holds TTY_QUEUE_SIZE s.tty.keyBuf pending ∧
    chars ++ pending.map charOf = keys.map charOf
  counts : (lineOf msg.cnt chars).2 = false →
    s.tty.ttyTransCnt = (lineOf msg.cnt chars).1.length ∧
      s.tty.ttyTransCnt + s.tty.ttyLeftCnt = msg.cnt
  fits : ((lineOf msg.cnt chars).1.length : Int) ≤ msg.cnt
  answered : (lineOf msg.cnt chars).2 = decide (s.tty.ttyLeftCnt = 0)
  buffer : HasLine s.mem la (lineOf msg.cnt chars).1
  kept : ∀ x, ¬ InBlock la msg.cnt.toNat x → s.mem x = before.mem x
  /-- one answer, when the line is complete -/
  sent : s.sent = before.sent ++ .suspendProc msg.source msg.cnt ::
    if (lineOf msg.cnt chars).2 then
      [.resumeProc msg.source msg.procNr (lineOf msg.cnt chars).1.length]
    else []

/-- The state that a request leaves. -/
theorem disciplined_request (hcnt : 1 ≤ msg.cnt)
    (hkeys : Holds TTY_QUEUE_SIZE before.tty.keyBuf keys)
    (h : ttyDoRead T before msg = .ok s) :
    ∃ la, procVa2la T msg.procNr msg.buf = .ok la ∧
      Disciplined msg la before s keys [] := by
  simp only [ttyDoRead, bind_eq_ok, pure_eq_ok] at h
  obtain ⟨la, hla, rfl⟩ := h
  refine ⟨la, hla, ?_⟩
  constructor
  case caller | procnr | reqBuf => rfl
  case in_order => exact ⟨keys, hkeys, rfl⟩
  case counts => exact fun _ => ⟨rfl, Int.zero_add _⟩
  case fits =>
    show (0 : Int) ≤ msg.cnt
    omega
  case answered =>
    show false = decide (msg.cnt = 0)
    rw [eq_comm, decide_eq_false_iff_not]
    omega
  case buffer => exact fun j hj => absurd hj (Nat.not_lt_zero j)
  case kept => exact fun _ _ => rfl
  case sent => rfl

/-- A key goes to the end of the ring, or is lost where the ring is full. -/
theorem disciplined_enqueue (h : Disciplined msg la before s keys chars)
    (key : BitVec 32) :
    Disciplined msg la before { s with tty := ttyKeyEnqueue s.tty key }
      (if s.tty.keyBuf.count < TTY_QUEUE_SIZE then keys ++ [key] else keys)
      chars := by
  rw [ttyKeyEnqueue]
  by_cases hroom : s.tty.keyBuf.count < TTY_QUEUE_SIZE
  · rw [if_pos hroom, if_pos hroom]
    obtain ⟨pending, hholds, horder⟩ := h.in_order
    exact { h with
      in_order := ⟨pending ++ [key], holds_put hholds hroom key, by
        rw [List.map_append, ← List.append_assoc, horder, List.map_append]⟩ }
  · rw [if_neg hroom, if_neg hroom]
    exact h

/-- The discipline does not speak of the screen. -/
theorem disciplined_screen (h : Disciplined msg la before s keys chars)
    (screen : State) :
    Disciplined msg la before { s with screen := screen } keys chars :=
  { h with }

/-- A finished line takes no further character. -/
theorem typed_done {n : Int} {text : List Byte × Bool} (h : text.2 = true)
    (ch : Byte) : typed n text ch = text := by
  rw [typed, if_pos h]

/-- A key is taken, and is the next of those that were let in. -/
theorem in_order_dequeued {pending : List (BitVec 32)} {b : Buffer (BitVec 32)}
    (hkeys : b.count ≠ 0) (hholds : Holds TTY_QUEUE_SIZE b pending)
    (horder : chars ++ pending.map charOf = keys.map charOf) :
    ∃ rest, Holds TTY_QUEUE_SIZE (get TTY_QUEUE_SIZE b).2 rest ∧
      chars ++ [charOf (get TTY_QUEUE_SIZE b).1] ++ rest.map charOf =
        keys.map charOf := by
  cases pending with
  | nil => exact absurd hholds.count_eq hkeys
  | cons key rest =>
      obtain ⟨hfirst, hrest⟩ := holds_get hholds
      refine ⟨rest, hrest, ?_⟩
      rw [hfirst, ← horder, List.append_assoc]
      rfl

/-- **A ROUND AFTER THE ANSWER** only takes a key. -/
theorem disciplined_idle (h : Disciplined msg la before s keys chars)
    (hkeys : s.tty.keyBuf.count ≠ 0) (hleft : s.tty.ttyLeftCnt = 0) :
    Disciplined msg la before (dequeued s) keys (chars ++ [nextChar s]) := by
  obtain ⟨pending, hholds, horder⟩ := h.in_order
  have hdone : (lineOf msg.cnt chars).2 = true := by
    rw [h.answered, decide_eq_true hleft]
  have hsame : lineOf msg.cnt (chars ++ [nextChar s]) = lineOf msg.cnt chars := by
    rw [lineOf_snoc, typed_done hdone]
  constructor
  case caller => exact h.caller
  case procnr => exact h.procnr
  case reqBuf => exact h.reqBuf
  case in_order => exact in_order_dequeued hkeys hholds horder
  case counts =>
    rw [hsame]
    exact h.counts
  case fits =>
    rw [hsame]
    exact h.fits
  case answered =>
    rw [hsame]
    exact h.answered
  case buffer =>
    rw [hsame]
    exact h.buffer
  case kept => exact h.kept
  case sent =>
    rw [hsame]
    exact h.sent

/-- **A ROUND OF A READER** keeps to the edited line. -/
theorem disciplined_reading (hnr : nr < NR_CONSOLES)
    (hcnt : msg.cnt < 2147483648)
    (h : Disciplined msg la before s keys chars)
    (hkeys : s.tty.keyBuf.count ≠ 0) (hleft : s.tty.ttyLeftCnt ≠ 0)
    (hround : ttyDevWriteRound fuel nr s = .ok t) :
    Disciplined msg la before t keys (chars ++ [nextChar s]) := by
  obtain ⟨htty, hmem, hsent, -⟩ := reading_ok hnr hleft hround
  obtain ⟨hbuf, hcaller, hprocnr, hreq⟩ :=
    counted_keeps (dequeued s).tty (nextChar s)
  obtain ⟨pending, hholds, horder⟩ := h.in_order
  have hopen : (lineOf msg.cnt chars).2 = false := by
    rw [h.answered, decide_eq_false hleft]
  obtain ⟨htrans, hsum⟩ := h.counts hopen
  have hfits := h.fits
  -- the line behind the character, and the counters of its length
  have hsnoc : lineOf msg.cnt (chars ++ [nextChar s]) =
      typed msg.cnt ((lineOf msg.cnt chars).1, false) (nextChar s) := by
    rw [lineOf_snoc, ← hopen]
  have hedit : (lineOf msg.cnt (chars ++ [nextChar s])).1 =
      edit (lineOf msg.cnt chars).1 (nextChar s) := by
    rw [hsnoc]
    rfl
  have hshort := length_edit (lineOf msg.cnt chars).1 (nextChar s)
  obtain ⟨hlen, hkept⟩ := counted_edit (dequeued s).tty htrans (nextChar s)
  have hdone := done_iff (dequeued s).tty (nextChar s) htrans hsum
  rw [← hsnoc] at hdone
  constructor
  case caller =>
    rw [htty]
    exact hcaller.trans h.caller
  case procnr =>
    rw [htty]
    exact hprocnr.trans h.procnr
  case reqBuf =>
    rw [htty]
    exact hreq.trans h.reqBuf
  case in_order =>
    have hkeyBuf : t.tty.keyBuf = (get TTY_QUEUE_SIZE s.tty.keyBuf).2 := by
      rw [htty]
      exact hbuf
    rw [hkeyBuf]
    exact in_order_dequeued hkeys hholds horder
  case counts =>
    intro hstill
    have hnot : ¬ Done (edited s) (nextChar s) := fun hd => by
      rw [hdone.mp hd] at hstill
      cases hstill
    rw [htty, hedit, if_neg hnot]
    exact ⟨hlen, hkept.trans hsum⟩
  case fits =>
    rw [hedit]
    have hne : s.tty.ttyLeftCnt ≠ 0 := hleft
    omega
  case answered =>
    rw [htty, Bool.eq_iff_iff, ← hdone, decide_eq_true_iff]
    by_cases hd : Done (edited s) (nextChar s)
    · rw [if_pos hd]
      exact iff_of_true hd rfl
    · rw [if_neg hd]
      exact iff_of_false hd fun hzero => hd (Or.inr hzero)
  case buffer =>
    rw [hmem, hedit]
    exact hasLine_stored h.reqBuf htrans (by omega) h.buffer _
  case kept =>
    intro x hx
    have hout : x ≠ la + BitVec.ofNat 32 (lineOf msg.cnt chars).1.length := by
      rintro rfl
      exact hx ((inBlock_offset (by omega)).mpr ⟨_, by omega, rfl⟩)
    rw [hmem, storedChar_out h.reqBuf htrans hout]
    exact h.kept x hx
  case sent =>
    have hstart : s.sent = before.sent ++ [.suspendProc msg.source msg.cnt] := by
      rw [h.sent, hopen]
      rfl
    have htrans' : (edited s).ttyTransCnt =
        (edit (lineOf msg.cnt chars).1 (nextChar s)).length := hlen
    rw [hsent, hstart, hedit, h.caller, h.procnr, htrans', List.append_assoc,
      List.singleton_append]
    by_cases hd : Done (edited s) (nextChar s)
    · rw [if_pos (hdone.mp hd), if_pos hd]
    · rw [if_neg fun hyes => hd (hdone.mpr hyes), if_neg hd]

/-- **A ROUND**. -/
theorem disciplined_round (hnr : nr < NR_CONSOLES) (hcnt : msg.cnt < 2147483648)
    (h : Disciplined msg la before s keys chars)
    (hkeys : s.tty.keyBuf.count ≠ 0)
    (hround : ttyDevWriteRound fuel nr s = .ok t) :
    Disciplined msg la before t keys (chars ++ [nextChar s]) := by
  by_cases hleft : s.tty.ttyLeftCnt = 0
  · rw [round_idle hleft] at hround
    rw [← Except.ok.inj hround]
    exact disciplined_idle h hkeys hleft
  · exact disciplined_reading hnr hcnt h hkeys hleft hround

variable {s₀ : Sys} {keys₀ : List (BitVec 32)}

/-- **RUN**. -/
theorem disciplined_run (hnr : nr < NR_CONSOLES) (hcnt : msg.cnt < 2147483648)
    (h₀ : Disciplined msg la before s₀ keys₀ [])
    (h : Run nr s₀ keys₀ s keys chars) :
    Disciplined msg la before s keys chars := by
  induction h with
  | request => exact h₀
  | enqueue key _ ih => exact disciplined_enqueue ih key
  | round _ hkeys hround ih => exact disciplined_round hnr hcnt ih hkeys hround
  | screen _ _ ih => exact disciplined_screen ih _

/-- The whole of `tty_dev_write` takes all keys. -/
theorem write_run {rounds : Nat} (h : Run nr s₀ keys₀ s keys chars)
    (hwrite : ttyDevWrite fuel nr rounds s = .ok t) :
    t.tty.keyBuf.count = 0 ∧ ∃ chars', Run nr s₀ keys₀ t keys chars' := by
  induction rounds generalizing s chars with
  | zero => cases hwrite
  | succ rounds ih =>
      rw [ttyDevWrite] at hwrite
      by_cases hkeys : s.tty.keyBuf.count ≠ 0
      · rw [if_pos hkeys, bind_eq_ok] at hwrite
        obtain ⟨u, hround, hrest⟩ := hwrite
        exact ih (.round h hkeys hround) hrest
      · rw [if_neg hkeys, pure_eq_ok] at hwrite
        subst hwrite
        exact ⟨not_not.mp hkeys, chars, h⟩

/-- With an empty ring the characters are those of all keys. -/
theorem Disciplined.drained (h : Disciplined msg la before s keys chars)
    (hkeys : s.tty.keyBuf.count = 0) : chars = keys.map charOf := by
  obtain ⟨pending, hholds, horder⟩ := h.in_order
  have hnone : pending = [] := by
    rw [← List.length_eq_zero_iff, ← hholds.count_eq, hkeys]
  rw [hnone, List.map_nil, List.append_nil] at horder
  exact horder

end Discipline

end KosTty
