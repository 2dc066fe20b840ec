import Kos.IpcProofs
import Kos.GuardedRunProofs

/-! # FS and TTY

    `task_tty` and the part of `task_fs` that talks to it, as two machines over
    the process table: each step is one kernel call or the code up to the next
    one.  All other processes make calls as they like, keys come as they like,
    and interrupts at any time.

    * TTY sends to FS while FS is SENDING to it, or the other way round, in
      runs where FS calls TTY during a read (`tty_deadlock`);
    * if FS calls TTY only when TTY waits for a message or no read is under
      way, this never happens (`fs_tty_deadlock_free`). -/

namespace KosFsTty

open FlatMemory KosKernel KosIpc GuardedRun

def NR_CONSOLES : Nat := 3
def TTY_QUEUE_SIZE : Nat := 256

/-! ## Messages -/

/-- A message by its type, with the fields that the two tasks read.  What FS
    finds when it looks up the file of a request is part of the request: `dev`
    is the minor number of a tty, if the file is one. -/
inductive Body where
  | fsOpen (dev : Option Nat)
  | fsReadWrite (write : Bool) (dev : Option Nat) (cnt : Int)
  | other
  | resumeProc (procNr cnt : Int)
  | devOpen (minor : Nat)
  | devRead (minor : Nat) (procNr cnt : Int)
  | devWrite (minor : Nat) (procNr cnt : Int)
  | suspendProc (cnt : Int)
  | syscallRet (cnt : Int)
  | hwInt
  deriving DecidableEq, Repr

/-- `CNT`. -/
def Body.cnt : Body → Int
  | .fsReadWrite _ _ cnt | .resumeProc _ cnt | .devRead _ _ cnt
  | .devWrite _ _ cnt | .suspendProc cnt | .syscallRet cnt => cnt
  | _ => 0

/-- A message to the driver of a tty. -/
def Body.isDev : Body → Bool
  | .devOpen _ | .devRead _ _ _ | .devWrite _ _ _ => true
  | _ => false

/-- What a process other than the two tasks sends; there are three ttys. -/
def Body.isRequest : Body → Bool
  | .fsOpen dev | .fsReadWrite _ dev _ => dev.all fun i => i < NR_CONSOLES
  | .other => true
  | _ => false

/-! ## The state -/

/-- `struct tty`, without the screen and the caller's buffer.  The key queue is
    a list. -/
structure Tty where
  keyBuf : List (BitVec 32) := []
  ttyCaller : Int := 0
  ttyProcnr : Int := 0
  ttyLeftCnt : Int := 0
  ttyTransCnt : Int := 0
  deriving DecidableEq, Repr

/-- The next thing TTY does. -/
inductive TtyPc where
  /-- `tty_dev_read` -/
  | devRead (i : Nat)
  /-- the loop of `tty_dev_write` -/
  | devWrite (i : Nat)
  /-- the SEND of `RESUME_PROC`, and what follows it -/
  | resume (i : Nat)
  | resumed (i : Nat)
  | receive
  | serve
  /-- the SEND of an answer -/
  | reply (pid : Int) (msg : Body)
  deriving DecidableEq, Repr

/-- The next thing FS does for the process `src`. -/
inductive FsPc where
  | receive
  | serve
  /-- the file system's own work, with its calls to the disk driver -/
  | work (src : Int) (dev : Option Nat)
  | callHd (src : Int) (dev : Option Nat)
  | hearHd (src : Int) (dev : Option Nat)
  /-- `SEND_RECEIVE` to TTY, and what follows it -/
  | callTty (src : Int) (msg : Body)
  | hearTty (src : Int) (msg : Body)
  | heard (src : Int) (msg : Body)
  | reply (src : Int)
  deriving DecidableEq, Repr

/-- The table of the kernel with the messages under way, FS and TTY. -/
structure Sys where
  table : Table
  /-- the message of a process's last SEND -/
  out : Int → Body
  /-- the message it has got, and its source -/
  inb : Int → Option (Int × Body)
  tty : TtyPc
  fs : FsPc
  ttyTable : Nat → Tty
  currentConsole : Nat

/-- The message that a process has received last. -/
def Sys.setInb (s : Sys) (p : Int) (msg : Option (Int × Body)) : Sys :=
  { s with inb := fun q => if q = p then msg else s.inb q }

/-- One terminal changes. -/
def Sys.setTty (s : Sys) (i : Nat) (t : Tty) : Sys :=
  { s with ttyTable := fun j => if j = i then t else s.ttyTable j }

/-- A message has arrived. -/
def Sys.settle (s : Sys) : List Write → Sys
  | [.copyMsg receiver sender _ _] =>
      s.setInb receiver (some (sender, s.out sender))
  | [.copyIntMsg receiver _] => s.setInb receiver (some (INTERRUPT, .hwInt))
  | [.setIntMsg receiver _] => s.setInb receiver (some (INTERRUPT, .hwInt))
  | _ => s

/-- The loop bound and the address of a message. -/
structure Choice where
  fuel : Nat
  m : Addr

/-- A SEND with its message. -/
def Sys.send (x : Choice) (s : Sys) (p r : Int) (msg : Body) :
    Except Halt Sys := do
  let res ← kernelMsgSend x.fuel s.table p r x.m
  pure ({ s with
    table := res.1
    out := fun q => if q = p then msg else s.out q }.settle res.2)

/-- A RECEIVE. -/
def Sys.rcv (x : Choice) (s : Sys) (p src : Int) : Except Halt Sys := do
  let res ← kernelMsgRcv x.fuel s.table p src x.m
  pure ({ s.setInb p none with table := res.1 }.settle res.2)

/-! ## TTY -/

def FLAG_EXT : BitVec 32 := 0x0100
def FLAG_ALT_L : BitVec 32 := 0x2000
def FLAG_ALT_R : BitVec 32 := 0x4000
def MASK_RAW : BitVec 32 := 0x01FF
def ENTER : BitVec 32 := 0x03 + FLAG_EXT
def BACKSPACE : BitVec 32 := 0x04 + FLAG_EXT
def F1 : BitVec 32 := 0x11 + FLAG_EXT
def F12 : BitVec 32 := 0x1C + FLAG_EXT

/-- `tty_key_enqueue`. -/
def ttyKeyEnqueue (t : Tty) (key : BitVec 32) : Tty :=
  if t.keyBuf.length < TTY_QUEUE_SIZE then
    { t with keyBuf := t.keyBuf ++ [key] }
  else t

/-- `switch_console`. -/
def switchConsole (s : Sys) (nrConsole : Nat) : Sys :=
  if nrConsole ≥ NR_CONSOLES then s else { s with currentConsole := nrConsole }

/-- `tty_process_key`; scrolling shows on the screen only. -/
def ttyProcessKey (i : Nat) (s : Sys) (key : BitVec 32) : Sys :=
  if key &&& FLAG_EXT = 0 then s.setTty i (ttyKeyEnqueue (s.ttyTable i) key)
  else
    let rawCode := key &&& MASK_RAW
    if rawCode = ENTER then s.setTty i (ttyKeyEnqueue (s.ttyTable i) 0x0A)
    else if rawCode = BACKSPACE then
      s.setTty i (ttyKeyEnqueue (s.ttyTable i) 0x08)
    else if F1 ≤ rawCode ∧ rawCode ≤ F12 ∧
        (key &&& FLAG_ALT_L ≠ 0 ∨ key &&& FLAG_ALT_R ≠ 0) then
      switchConsole s (rawCode - F1).toNat
    else s

/-- `tty_dev_read`; `keys` is what `keyboard_read` makes of the scan codes. -/
def ttyDevRead (s : Sys) (i : Nat) (keys : List (BitVec 32)) : Sys :=
  if s.currentConsole = i then keys.foldl (ttyProcessKey i) s else s

/-- A character for a process that reads. -/
def takeChar (t : Tty) (ch : BitVec 8) : Tty :=
  if 0x20 ≤ ch ∧ ch ≤ 0x7E then
    { t with ttyTransCnt := t.ttyTransCnt + 1, ttyLeftCnt := t.ttyLeftCnt - 1 }
  else if ch = 0x08 ∧ t.ttyTransCnt ≠ 0 then
    { t with ttyTransCnt := t.ttyTransCnt - 1, ttyLeftCnt := t.ttyLeftCnt + 1 }
  else t

/-- The next tty of the loop in `task_tty`, or its RECEIVE. -/
def nextTty (i : Nat) : TtyPc :=
  if i + 1 < NR_CONSOLES then .devRead (i + 1) else .receive

/-- One round of the loop in `tty_dev_write`, up to its SEND. -/
def ttyDevWrite (s : Sys) (i : Nat) : Sys :=
  match (s.ttyTable i).keyBuf with
  | [] => { s with tty := nextTty i }
  | key :: keys =>
      let ch := key.setWidth 8
      let t : Tty := { s.ttyTable i with keyBuf := keys }
      if t.ttyLeftCnt ≠ 0 then
        let t := takeChar t ch
        if ch = 0x0A ∨ t.ttyLeftCnt = 0 then
          { s.setTty i t with tty := .resume i }
        else s.setTty i t
      else s.setTty i t

/-- The `switch` of `task_tty`. -/
def ttyServe (s : Sys) : Except Halt Sys :=
  match s.inb TASK_TTY with
  | none => .error .assertionFailure
  | some (pid, msg) => do
      assert (pid ≠ TASK_TTY)
      match msg with
      | .devOpen _ => pure { s with tty := .reply pid (.syscallRet 0) }
      | .devRead minor procNr cnt =>
          let t : Tty := { s.ttyTable minor with
            ttyCaller := pid
            ttyProcnr := procNr
            ttyLeftCnt := cnt
            ttyTransCnt := 0 }
          pure { s.setTty minor t with tty := .reply pid (.suspendProc cnt) }
      | .devWrite _ _ cnt => pure { s with tty := .reply pid (.syscallRet cnt) }
      | _ => pure { s with tty := .devRead 0 }

/-- One step of `task_tty`. -/
def ttyStep (x : Choice) (keys : List (BitVec 32)) (s : Sys) :
    Except Halt Sys :=
  match s.tty with
  | .devRead i => pure { ttyDevRead s i keys with tty := .devWrite i }
  | .devWrite i => pure (ttyDevWrite s i)
  | .resume i =>
      let t := s.ttyTable i
      { s with tty := .resumed i }.send x TASK_TTY t.ttyCaller
        (.resumeProc t.ttyProcnr t.ttyTransCnt)
  | .resumed i =>
      let t : Tty := { s.ttyTable i with ttyLeftCnt := 0 }
      pure { s.setTty i t with tty := .devWrite i }
  | .receive => { s with tty := .serve }.rcv x TASK_TTY ANY
  | .serve => ttyServe s
  | .reply pid msg => { s with tty := .devRead 0 }.send x TASK_TTY pid msg

/-! ## FS -/

/-- The `switch` of `task_fs`. -/
def fsServe (s : Sys) : Except Halt Sys :=
  match s.inb TASK_FS with
  | some (src, .fsOpen dev) => pure { s with fs := .work src dev }
  | some (src, .fsReadWrite write (some minor) cnt) =>
      let msg : Body :=
        if write then .devWrite minor src cnt else .devRead minor src cnt
      pure { s with fs := .callTty src msg }
  | some (src, .fsReadWrite _ none _) => pure { s with fs := .work src none }
  | some (src, .other) => pure { s with fs := .work src none }
  | some (_, .resumeProc procNr _) => pure { s with fs := .reply procNr }
  | _ => .error .assertionFailure

/-- Behind the call of the driver: nothing is answered to a process that TTY
    has suspended. -/
def fsHeard (s : Sys) (src : Int) (msg : Body) : Except Halt Sys :=
  match msg with
  | .devOpen _ => pure { s with fs := .reply src }
  | _ =>
      match s.inb TASK_FS with
      | none => .error .assertionFailure
      | some (_, answer) => do
          assert (answer.cnt = msg.cnt)
          match answer with
          | .suspendProc _ => pure { s with fs := .receive }
          | _ => pure { s with fs := .reply src }

/-- One step of `task_fs`; `disk` is whether its work needs the disk. -/
def fsStep (x : Choice) (disk : Bool) (s : Sys) : Except Halt Sys :=
  match s.fs with
  | .receive => { s with fs := .serve }.rcv x TASK_FS ANY
  | .serve => fsServe s
  | .work src dev =>
      if disk then pure { s with fs := .callHd src dev }
      else
        match dev with
        | some minor => pure { s with fs := .callTty src (.devOpen minor) }
        | none => pure { s with fs := .reply src }
  | .callHd src dev =>
      { s with fs := .hearHd src dev }.send x TASK_FS TASK_HD .other
  | .hearHd src dev => { s with fs := .work src dev }.rcv x TASK_FS TASK_HD
  | .callTty src msg =>
      { s with fs := .hearTty src msg }.send x TASK_FS TASK_TTY msg
  | .hearTty src msg => { s with fs := .heard src msg }.rcv x TASK_FS TASK_TTY
  | .heard src msg => fsHeard s src msg
  | .reply src =>
      { s with fs := .receive }.send x TASK_FS src (.syscallRet 0)

/-! ## Runs -/

/-- What may happen next. -/
inductive Event where
  | send (x : Choice) (q r : Int) (msg : Body)
  | rcv (x : Choice) (q src : Int)
  | hwInt (taskNr : Int)
  | tty (x : Choice) (keys : List (BitVec 32))
  | fs (x : Choice) (disk : Bool)

/-- Only a runnable process makes a step. -/
def Enabled (s : Sys) : Event → Prop
  | .send _ q r msg => q ≠ TASK_FS ∧ q ≠ TASK_TTY ∧ InTable q ∧ InTable r ∧
      msg.isRequest = true ∧ (s.table q).procState = RUNNABLE
  | .rcv _ q src => q ≠ TASK_FS ∧ q ≠ TASK_TTY ∧ InTable q ∧ IsSource src ∧
      (s.table q).procState = RUNNABLE
  | .hwInt taskNr => taskNr = TASK_TTY ∨ taskNr = TASK_HD
  | .tty _ _ => (s.table TASK_TTY).procState = RUNNABLE
  | .fs _ _ => (s.table TASK_FS).procState = RUNNABLE

instance (src : Int) : Decidable (IsSource src) :=
  inferInstanceAs (Decidable (_ ∨ _))

instance (s : Sys) : (e : Event) → Decidable (Enabled s e)
  | .send _ _ _ _ => inferInstanceAs (Decidable (_ ∧ _))
  | .rcv _ _ _ => inferInstanceAs (Decidable (_ ∧ _))
  | .hwInt _ => inferInstanceAs (Decidable (_ ∨ _))
  | .tty _ _ => inferInstanceAs (Decidable (_ = _))
  | .fs _ _ => inferInstanceAs (Decidable (_ = _))

/-- The event, as the kernel, FS and TTY carry it out. -/
def exec (s : Sys) : Event → Except Halt Sys
  | .send x q r msg => s.send x q r msg
  | .rcv x q src => s.rcv x q src
  | .hwInt taskNr => do
      let res ← hwIntNotification s.table taskNr
      pure ({ s with table := res.1 }.settle res.2)
  | .tty x keys => ttyStep x keys s
  | .fs x disk => fsStep x disk s

/-- An event that is possible and does not halt. -/
def Step (s : Sys) (e : Event) (s' : Sys) : Prop :=
  Enabled s e ∧ exec s e = .ok s'

/-- Boot: no messages, no keys, no reads. -/
structure Boot (s : Sys) : Prop where
  table : Booted s.table
  out : ∀ q, s.out q = .syscallRet 0
  inb : ∀ q, s.inb q = none
  tty : s.tty = .devRead 0
  fs : s.fs = .receive
  reads : ∀ i, (s.ttyTable i).ttyLeftCnt = 0

/-! ## The deadlock -/

/-- `p` is SENDING to `r`. -/
def SendingTo (T : Table) (p r : Int) : Prop :=
  (T p).procState.sending = true ∧ (T p).pidSendingto = r

/-- The SEND that comes next makes `check_deadlock` find the other one of the
    two tasks SENDING to its caller. -/
def Deadlocks (s : Sys) : Event → Prop
  | .tty _ _ => SendingTo s.table TASK_FS TASK_TTY ∧
      ((∃ i, s.tty = .resume i ∧ (s.ttyTable i).ttyCaller = TASK_FS) ∨
        ∃ msg, s.tty = .reply TASK_FS msg)
  | .fs _ _ => SendingTo s.table TASK_TTY TASK_FS ∧
      ((∃ src msg, s.fs = .callTty src msg) ∨ s.fs = .reply TASK_TTY)
  | _ => False

/-- A read of tty `i` is under way: FS has not got its `RESUME_PROC`. -/
def Reading (s : Sys) (i : Nat) : Prop :=
  ((s.ttyTable i).ttyLeftCnt ≠ 0 ∧ s.tty ≠ .resumed i) ∨ s.tty = .resume i ∨
    (s.tty = .resumed i ∧ (s.table TASK_TTY).procState.sending = true)

/-- TTY will get a message of FS before it has to answer a read. -/
def Clear (s : Sys) : Prop :=
  IsWaitingFor s.table TASK_TTY TASK_FS ∨ ∀ i, ¬ Reading s i

/-- The condition on a run: FS calls TTY when this is clear. -/
def CallsClear (s : Sys) : Event → Prop
  | .fs _ _ => ∀ src msg, s.fs = .callTty src msg → Clear s
  | _ => True

/-! ## What one kernel call does to the waits -/

/-- The same waits. -/
structure Still (x y : Proc) : Prop where
  sending : x.procState.sending = y.procState.sending
  receiving : x.procState.receiving = y.procState.receiving
  target : x.pidSendingto = y.pidSendingto
  source : x.pidRecvingfrom = y.pidRecvingfrom

theorem still_setLink (T : Table) (p q : Int) (l : Option Int) :
    Still (setLink T p l q) (T q) := by
  rw [setLink_frame]
  exact ⟨rfl, rfl, rfl, rfl⟩

theorem still_trans {x y z : Proc} (h : Still x y) (h' : Still y z) :
    Still x z :=
  ⟨h.sending.trans h'.sending, h.receiving.trans h'.receiving,
    h.target.trans h'.target, h.source.trans h'.source⟩

/-- The other entries are as they were. -/
theorem still_upd_of_ne (T : Table) {p q : Int} (f : Proc → Proc)
    (h : q ≠ p) : Still (T.upd p f q) (T q) := by
  rw [upd_of_ne T f h]
  exact ⟨rfl, rfl, rfl, rfl⟩

/-- A process that neither sends nor waits. -/
def Idle (x : Proc) : Prop :=
  x.procState.sending = false ∧ x.procState.receiving = false

/-- A process that runs waits for nothing. -/
theorem idle_of_runnable {x : Proc} (h : x.procState = RUNNABLE) : Idle x := by
  rw [Idle, h]
  exact ⟨rfl, rfl⟩

section Calls

variable {fuel : Nat} {T T' : Table} {p r src : Int} {m : Addr} {w : List Write}

/-- A SEND blocks its caller, or wakes a receiver that waits for it. -/
theorem send_effect (h : kernelMsgSend fuel T p r m = .ok (T', w))
    (hrun : (T p).procState = RUNNABLE) :
    (w = [] ∧ ¬ IsWaitingFor T r p ∧ SendingTo T' p r ∧
      (T' p).procState.receiving = false ∧ ∀ q, q ≠ p → Still (T' q) (T q)) ∨
    ((∃ dst a, w = [.copyMsg r p dst a]) ∧ IsWaitingFor T r p ∧ Idle (T' r) ∧
      ∀ q, q ≠ r → Still (T' q) (T q)) := by
  obtain ⟨-, -, hdir | hblk⟩ := kernelMsgSend_cases h
  · obtain ⟨dst, a, -, -, hw⟩ := hdir.writes
    refine Or.inr ⟨⟨dst, a, hw⟩, hdir.waiting, ?_, fun q hq => ?_⟩
    · rw [hdir.table, upd_self, delivered, hdir.receiver]
      exact ⟨rfl, rfl⟩
    · rw [hdir.table]
      exact still_upd_of_ne T delivered hq
  · obtain ⟨t, l, -, hT⟩ := hblk.table
    have hself : Still (T' p) (blockedSending r m (T p)) := by
      rw [hT, ← upd_self T p (blockedSending r m)]
      exact still_trans (still_setLink _ _ _ _) (still_setLink _ _ _ _)
    refine Or.inl ⟨hblk.writes, hblk.notWaiting, ?_, ?_, fun q hq => ?_⟩
    · exact ⟨hself.sending, hself.target⟩
    · rw [hself.receiving, blockedSending, hrun]
      rfl
    · rw [hT]
      exact still_trans (still_setLink _ _ _ _)
        (still_trans (still_setLink _ _ _ _) (still_upd_of_ne T _ hq))

/-- A RECEIVE takes a pending interrupt, wakes a process SENDING to its caller,
    or blocks. -/
theorem rcv_effect (h : kernelMsgRcv fuel T r src m = .ok (T', w)) :
    ((∃ dst, w = [.copyIntMsg r dst]) ∧ (src = ANY ∨ src = INTERRUPT) ∧
      ∀ q, Still (T' q) (T q)) ∨
    (∃ s, (∃ dst a, w = [.copyMsg r s dst a]) ∧ (src = ANY ∨ src = s) ∧
      (T s).procState = SENDING ∧ (T s).pidSendingto = r ∧ Idle (T' s) ∧
      ∀ q, q ≠ s → Still (T' q) (T q)) ∨
    (w = [] ∧ (T' r).procState.receiving = true ∧
      (T' r).pidRecvingfrom = src ∧
      (T' r).procState.sending = (T r).procState.sending ∧
      (src ≠ ANY → ¬ SendingTo T src r) ∧
      ∀ q, q ≠ r → Still (T' q) (T q)) := by
  obtain ⟨-, hint | ⟨-, ⟨s, x, hf⟩ | hblk⟩⟩ := kernelMsgRcv_cases h
  · obtain ⟨dst, -, hw⟩ := hint.writes
    refine Or.inl ⟨⟨dst, hw⟩, hint.source, fun q => ?_⟩
    rw [hint.table]
    by_cases hq : q = r
    · rw [hq, upd_self]
      exact ⟨rfl, rfl, rfl, rfl⟩
    · exact still_upd_of_ne T _ hq
  · obtain ⟨dst, a, -, -, hw⟩ := hf.writes
    refine Or.inr (Or.inl ⟨s, ⟨dst, a, hw⟩, ?_, hf.sender, hf.target, ?_,
      fun q hq => ?_⟩)
    · rcases hf.choice with ⟨hany, -⟩ | ⟨-, hsrc, -⟩
      · exact Or.inl hany
      · exact Or.inr hsrc
    · rw [hf.table, upd_self]
      refine ⟨rfl, ?_⟩
      show (setLink _ s none s).procState.receiving = false
      rw [setLink_procState, setLink_procState, hf.sender]
      rfl
    · rw [hf.table]
      exact still_trans (still_upd_of_ne _ _ hq)
        (still_trans (still_setLink _ _ _ _) (still_setLink _ _ _ _))
  · refine Or.inr (Or.inr ⟨hblk.writes, ?_, ?_, ?_, hblk.notSending,
      fun q hq => ?_⟩)
    · rw [hblk.table, upd_self]; rfl
    · rw [hblk.table, upd_self]; rfl
    · rw [hblk.table, upd_self]; rfl
    · rw [hblk.table]
      exact still_upd_of_ne T _ hq

/-- An interrupt wakes a task that waits for it, or is noted. -/
theorem hwInt_effect (h : hwIntNotification T p = .ok (T', w)) :
    ((∃ dst, w = [.setIntMsg p dst]) ∧ IsWaitingForInt T p ∧ Idle (T' p) ∧
      ∀ q, q ≠ p → Still (T' q) (T q)) ∨
    (w = [] ∧ ∀ q, Still (T' q) (T q)) := by
  rcases hwIntNotification_cases h with ⟨hwait, hst, hT, hw⟩ | ⟨-, hT, hw⟩
  · refine Or.inl ⟨⟨_, hw⟩, hwait, ?_, fun q hq => ?_⟩
    · rw [hT, upd_self, interrupted, hst]
      exact ⟨rfl, rfl⟩
    · rw [hT]
      exact still_upd_of_ne T _ hq
  · refine Or.inr ⟨hw, fun q => ?_⟩
    rw [hT]
    by_cases hq : q = p
    · rw [hq, upd_self]
      exact ⟨rfl, rfl, rfl, rfl⟩
    · exact still_upd_of_ne T _ hq

end Calls

/-! ## What one call does to the two tasks -/

/-- A call moves neither task on. -/
structure Kept (s s' : Sys) : Prop where
  tty : s'.tty = s.tty
  fs : s'.fs = s.fs
  ttyTable : s'.ttyTable = s.ttyTable

/-- The message that a process sends. -/
def Sys.setOut (s : Sys) (p : Int) (msg : Body) : Sys :=
  { s with out := fun q => if q = p then msg else s.out q }

/-- What is settled behind a call. -/
theorem kept_settle (s : Sys) (w : List Write) :
    Kept s (s.settle w) ∧ (s.settle w).table = s.table ∧
      (s.settle w).out = s.out := by
  unfold Sys.settle
  split <;> exact ⟨⟨rfl, rfl, rfl⟩, rfl, rfl⟩

variable {x : Choice} {s s' : Sys} {p r src : Int} {msg : Body}

/-- **WHAT A SEND DOES**: the receiver has the message, or the sender waits. -/
theorem send_spec (h : s.send x p r msg = .ok s')
    (hrun : (s.table p).procState = RUNNABLE) :
    Kept s s' ∧ s'.out = (s.setOut p msg).out ∧
    ((¬ IsWaitingFor s.table r p ∧ SendingTo s'.table p r ∧
        (s'.table p).procState.receiving = false ∧
        (∀ q, q ≠ p → Still (s'.table q) (s.table q)) ∧ s'.inb = s.inb) ∨
      (IsWaitingFor s.table r p ∧ Idle (s'.table r) ∧
        (∀ q, q ≠ r → Still (s'.table q) (s.table q)) ∧
        s'.inb = (s.setInb r (some (p, msg))).inb)) := by
  simp only [Sys.send, bind_eq_ok, pure_eq_ok] at h
  obtain ⟨⟨T', w⟩, hcall, rfl⟩ := h
  let s₁ : Sys := { s.setOut p msg with table := T' }
  obtain ⟨hkept, htab, hout⟩ := kept_settle s₁ w
  refine ⟨⟨hkept.tty, hkept.fs, hkept.ttyTable⟩, hout, ?_⟩
  change _ ∨ (_ ∧ Idle ((s₁.settle w).table r) ∧
    (∀ q, q ≠ r → Still ((s₁.settle w).table q) (s.table q)) ∧ _)
  rw [htab]
  rcases send_effect hcall hrun with
    ⟨rfl, hnot, hto, hrec, hstill⟩ | ⟨⟨dst, a, rfl⟩, hwait, hidle, hstill⟩
  · exact Or.inl ⟨hnot, hto, hrec, hstill, rfl⟩
  · refine Or.inr ⟨hwait, hidle, hstill, ?_⟩
    have hown : s₁.out p = msg := if_pos rfl
    show (s₁.setInb r (some (p, s₁.out p))).inb = _
    rw [hown]
    rfl

/-- **WHAT A RECEIVE DOES**: an interrupt, a message, or it waits. -/
theorem rcv_spec (h : s.rcv x p src = .ok s') :
    Kept s s' ∧ s'.out = s.out ∧
    (((src = ANY ∨ src = INTERRUPT) ∧
        (∀ q, Still (s'.table q) (s.table q)) ∧
        s'.inb = (s.setInb p (some (INTERRUPT, .hwInt))).inb) ∨
      (∃ q, (src = ANY ∨ src = q) ∧ (s.table q).procState = SENDING ∧
        SendingTo s.table q p ∧ Idle (s'.table q) ∧
        (∀ y, y ≠ q → Still (s'.table y) (s.table y)) ∧
        s'.inb = (s.setInb p (some (q, s.out q))).inb) ∨
      ((s'.table p).procState.receiving = true ∧
        (s'.table p).pidRecvingfrom = src ∧
        (s'.table p).procState.sending = (s.table p).procState.sending ∧
        (src ≠ ANY → ¬ SendingTo s.table src p) ∧
        (∀ q, q ≠ p → Still (s'.table q) (s.table q)) ∧
        s'.inb = (s.setInb p none).inb)) := by
  simp only [Sys.rcv, bind_eq_ok, pure_eq_ok] at h
  obtain ⟨⟨T', w⟩, hcall, rfl⟩ := h
  let s₁ : Sys := { s.setInb p none with table := T' }
  obtain ⟨hkept, htab, hout⟩ := kept_settle s₁ w
  have hinb : ∀ v, (s₁.setInb p v).inb = (s.setInb p v).inb := by
    intro v
    funext q
    by_cases hq : q = p <;> simp [s₁, Sys.setInb, hq]
  refine ⟨⟨hkept.tty, hkept.fs, hkept.ttyTable⟩, hout, ?_⟩
  change (_ ∧ (∀ q, Still ((s₁.settle w).table q) (s.table q)) ∧ _) ∨ _
  rw [htab]
  rcases rcv_effect hcall with ⟨⟨dst, rfl⟩, hsrc, hstill⟩ |
    ⟨q, ⟨dst, a, rfl⟩, hsrc, hst, hto, hidle, hstill⟩ |
    ⟨rfl, hrec, hfrom, hsnd, hnot, hstill⟩
  · exact Or.inl ⟨hsrc, hstill, hinb _⟩
  · have hsending : SendingTo s.table q p := ⟨by rw [hst]; rfl, hto⟩
    exact Or.inr (Or.inl ⟨q, hsrc, hst, hsending, hidle, hstill, hinb _⟩)
  · exact Or.inr (Or.inr ⟨hrec, hfrom, hsnd, hnot, hstill, rfl⟩)

/-! ## The invariant -/

/-- Who sends what: only FS calls the driver, and it does not do so for TTY. -/
def Fits (q : Int) : Body → Prop
  | .fsOpen _ | .fsReadWrite _ _ _ | .other => q ≠ TASK_TTY
  | .devOpen _ | .devWrite _ _ _ => q = TASK_FS
  | .devRead _ procNr _ => q = TASK_FS ∧ procNr ≠ TASK_TTY
  | .resumeProc procNr _ => procNr ≠ TASK_TTY
  | _ => True

/-- A request of a process fits. -/
theorem fits_request {q : Int} {msg : Body} (hmsg : msg.isRequest = true)
    (hq : q ≠ TASK_TTY) : Fits q msg ∧ msg.isDev = false := by
  cases msg <;> first | exact ⟨hq, rfl⟩ | cases hmsg

/-- Requests to the terminal come from FS. -/
theorem fs_of_dev {q : Int} {msg : Body} (h : Fits q msg)
    (hdev : msg.isDev = true) : q = TASK_FS := by
  cases msg with
  | devOpen _ => exact h
  | devRead _ _ _ => exact h.1
  | devWrite _ _ _ => exact h
  | _ => cases hdev

/-- The process FS works for. -/
def FsPc.client : FsPc → Option Int
  | .work src _ | .callHd src _ | .hearHd src _ | .callTty src _
  | .hearTty src _ | .heard src _ | .reply src => some src
  | _ => none

/-- TTY has a message of the driver's interface to answer. -/
def TtyServes (s : Sys) : Prop :=
  (∃ pid msg, s.tty = .reply pid msg) ∨
    (s.tty = .serve ∧ ∃ q msg, s.inb TASK_TTY = some (q, msg) ∧
      msg.isDev = true)

/-- FS is past its SEND to TTY and has no answer. -/
def FsWaits (s : Sys) : Prop :=
  (s.table TASK_FS).procState.sending = false ∧
    ((∃ src msg, s.fs = .hearTty src msg) ∨
      ((∃ src msg, s.fs = .heard src msg) ∧
        (s.table TASK_FS).procState.receiving = true))

/-- What the messages under way say of FS and TTY. -/
structure Inv (s : Sys) : Prop where
  out : ∀ q, Fits q (s.out q)
  inb : ∀ r q msg, s.inb r = some (q, msg) → Fits q msg
  client : ∀ src, s.fs.client = some src → src ≠ TASK_TTY
  driver : ∀ src msg, s.fs = .callTty src msg → Fits TASK_FS msg
  reader : ∀ i, (s.ttyTable i).ttyLeftCnt ≠ 0 ∨ s.tty = .resume i →
    (s.ttyTable i).ttyProcnr ≠ TASK_TTY
  answer : ∀ pid msg, s.tty = .reply pid msg → Fits TASK_TTY msg
  ttyRcv : (s.table TASK_TTY).procState.receiving = true → s.tty = .serve
  ttySnd : (s.table TASK_TTY).procState.sending = true →
    (∃ i, s.tty = .resumed i) ∨ s.tty = .devRead 0
  answered : SendingTo s.table TASK_TTY TASK_FS → s.tty = .devRead 0 →
    ∃ src msg, s.fs = .hearTty src msg
  fsSnd : SendingTo s.table TASK_FS TASK_TTY →
    ∃ src msg, s.fs = .hearTty src msg
  fsFrom : (s.table TASK_FS).procState.receiving = true →
    (∃ src msg, s.fs = .heard src msg) →
    (s.table TASK_FS).pidRecvingfrom = TASK_TTY
  serving : TtyServes s → FsWaits s
  quiet : SendingTo s.table TASK_FS TASK_TTY → ∀ i, ¬ Reading s i

/-! ## Other processes -/

/-- What a call of another process does to the entries of the two tasks: it
    wakes them, if they wait for it. -/
structure Foreign (T T' : Table) : Prop where
  ttyRcv : (T' TASK_TTY).procState.receiving = true →
    (T TASK_TTY).procState.receiving = true
  ttySnd : (T' TASK_TTY).procState.sending = true →
    (T TASK_TTY).procState.sending = true ∧
      (T' TASK_TTY).pidSendingto = (T TASK_TTY).pidSendingto
  fsSnd : (T' TASK_FS).procState.sending = true →
    (T TASK_FS).procState.sending = true ∧
      (T' TASK_FS).pidSendingto = (T TASK_FS).pidSendingto
  fsRcv : (T' TASK_FS).procState.receiving = true →
    (T TASK_FS).procState.receiving = true ∧
      (T' TASK_FS).pidRecvingfrom = (T TASK_FS).pidRecvingfrom
  fsWait : (T TASK_FS).procState.receiving = true →
    (T TASK_FS).procState.sending = false →
    (T TASK_FS).pidRecvingfrom = TASK_TTY →
    (T' TASK_FS).procState.receiving = true

/-- An entry with the same waits, or with none. -/
def Looser (x y : Proc) : Prop := Still x y ∨ Idle x

/-- Looser entries leave a foreign SEND. -/
theorem foreign_of_looser {T T' : Table}
    (htty : Looser (T' TASK_TTY) (T TASK_TTY))
    (hfs : Still (T' TASK_FS) (T TASK_FS) ∨ Idle (T' TASK_FS) ∧
      ¬ ((T TASK_FS).procState.receiving = true ∧
        (T TASK_FS).procState.sending = false ∧
        (T TASK_FS).pidRecvingfrom = TASK_TTY)) : Foreign T T' := by
  constructor
  case ttyRcv =>
    intro hr
    rcases htty with hst | hidle
    · rw [← hst.receiving]
      exact hr
    · rw [hidle.2] at hr
      cases hr
  case ttySnd =>
    intro hs
    rcases htty with hst | hidle
    · rw [← hst.sending]
      exact ⟨hs, hst.target⟩
    · rw [hidle.1] at hs
      cases hs
  case fsSnd =>
    intro hs
    rcases hfs with hst | ⟨hidle, -⟩
    · rw [← hst.sending]
      exact ⟨hs, hst.target⟩
    · rw [hidle.1] at hs
      cases hs
  case fsRcv =>
    intro hr
    rcases hfs with hst | ⟨hidle, -⟩
    · rw [← hst.receiving]
      exact ⟨hr, hst.source⟩
    · rw [hidle.2] at hr
      cases hr
  case fsWait =>
    intro hr hs hfrom
    rcases hfs with hst | ⟨-, hnot⟩
    · rw [hst.receiving]
      exact hr
    · exact absurd ⟨hr, hs, hfrom⟩ hnot

/-- A SEND was one before. -/
theorem sendingTo_of_looser {T T' : Table} (h : Looser (T' p) (T p))
    (hs : SendingTo T' p r) : SendingTo T p r := by
  rcases h with hst | hidle
  · exact ⟨hst.sending ▸ hs.1, hst.target ▸ hs.2⟩
  · exact absurd (hs.1.symm.trans hidle.1) (by decide)

/-- A step that moves neither task on keeps the invariant. -/
theorem inv_foreign (h : Inv s) (hkept : Kept s s')
    (htab : Foreign s.table s'.table) (hout : ∀ q, Fits q (s'.out q))
    (hinb : ∀ r q msg, s'.inb r = some (q, msg) → Fits q msg)
    (htty : s'.inb TASK_TTY = s.inb TASK_TTY ∨
      ∃ q msg, s'.inb TASK_TTY = some (q, msg) ∧ msg.isDev = false) :
    Inv s' := by
  obtain ⟨hpc, hfs, htt⟩ := hkept
  have hsnd : SendingTo s'.table TASK_FS TASK_TTY →
      SendingTo s.table TASK_FS TASK_TTY := by
    intro hs
    obtain ⟨hold, hto⟩ := htab.fsSnd hs.1
    exact ⟨hold, hto ▸ hs.2⟩
  constructor
  case out => exact hout
  case inb => exact hinb
  case client =>
    rw [hfs]
    exact h.client
  case driver =>
    rw [hfs]
    exact h.driver
  case reader =>
    rw [hpc, htt]
    exact h.reader
  case answer =>
    rw [hpc]
    exact h.answer
  case ttyRcv =>
    intro hr
    rw [hpc]
    exact h.ttyRcv (htab.ttyRcv hr)
  case ttySnd =>
    intro hs
    rw [hpc]
    exact h.ttySnd (htab.ttySnd hs).1
  case answered =>
    intro hs
    rw [hpc, hfs]
    obtain ⟨hold, hto⟩ := htab.ttySnd hs.1
    exact h.answered ⟨hold, hto ▸ hs.2⟩
  case fsSnd =>
    intro hs
    rw [hfs]
    exact h.fsSnd (hsnd hs)
  case fsFrom =>
    intro hr hheard
    rw [hfs] at hheard
    obtain ⟨hold, hfrom⟩ := htab.fsRcv hr
    rw [hfrom]
    exact h.fsFrom hold hheard
  case serving =>
    intro hserves
    -- what TTY may have received instead is not a request of a device
    have hold : TtyServes s := by
      rcases hserves with ⟨pid, msg, hr⟩ | ⟨hs, q, msg, hm, hdev⟩
      · exact Or.inl ⟨pid, msg, by rw [← hpc, hr]⟩
      · rcases htty with heq | ⟨q', msg', hm', hnot⟩
        · exact Or.inr ⟨by rw [← hpc, hs], q, msg, by rw [← heq, hm], hdev⟩
        · rw [hm'] at hm
          obtain ⟨rfl, rfl⟩ := Prod.mk.inj (Option.some.inj hm)
          rw [hnot] at hdev
          cases hdev
    obtain ⟨hidle, hwait⟩ := h.serving hold
    refine ⟨?_, ?_⟩
    · by_contra hs
      rw [(htab.fsSnd (by simpa using hs)).1] at hidle
      cases hidle
    · rw [hfs]
      rcases hwait with hhear | ⟨hheard, hrec⟩
      · exact Or.inl hhear
      · exact Or.inr ⟨hheard,
          htab.fsWait hrec hidle (h.fsFrom hrec hheard)⟩
  case quiet =>
    intro hs i hread
    refine h.quiet (hsnd hs) i ?_
    rw [Reading, hpc, htt] at hread
    rcases hread with hl | hr | ⟨hr, hts⟩
    · exact Or.inl hl
    · exact Or.inr (Or.inl hr)
    · exact Or.inr (Or.inr ⟨hr, (htab.ttySnd hts).1⟩)

/-- What is sent fits. -/
theorem fits_setOut (h : ∀ q, Fits q (s.out q)) (hmsg : Fits p msg) (q : Int) :
    Fits q ((s.setOut p msg).out q) := by
  show Fits q (if q = p then msg else s.out q)
  by_cases hq : q = p
  · rw [if_pos hq, hq]
    exact hmsg
  · rw [if_neg hq]
    exact h q

/-- And so does what is received. -/
theorem fits_setInb (h : ∀ r q msg, s.inb r = some (q, msg) → Fits q msg) {v : Option (Int × Body)}
    (hv : ∀ q msg, v = some (q, msg) → Fits q msg) (y q : Int) (msg : Body)
    (hmsg : (s.setInb p v).inb y = some (q, msg)) : Fits q msg := by
  change (if y = p then v else s.inb y) = some (q, msg) at hmsg
  by_cases hy : y = p
  · rw [if_pos hy] at hmsg
    exact hv q msg hmsg
  · rw [if_neg hy] at hmsg
    exact h y q msg hmsg

theorem setInb_of_ne (s : Sys) {y : Int} (v : Option (Int × Body))
    (h : y ≠ p) : (s.setInb p v).inb y = s.inb y := if_neg h

theorem setInb_self (s : Sys) (p : Int) (v : Option (Int × Body)) :
    (s.setInb p v).inb p = v := if_pos rfl

/-- **ANOTHER PROCESS SENDS**. -/
theorem inv_foreignSend (h : Inv s) (hfs : p ≠ TASK_FS) (htty : p ≠ TASK_TTY)
    (hmsg : msg.isRequest = true) (hrun : (s.table p).procState = RUNNABLE)
    (hcall : s.send x p r msg = .ok s') : Inv s' := by
  obtain ⟨hkept, hout, heff⟩ := send_spec hcall hrun
  obtain ⟨hfits, hnotdev⟩ := fits_request hmsg htty
  have hout' : ∀ q, Fits q (s'.out q) := by
    rw [hout]
    exact fits_setOut h.out hfits
  rcases heff with ⟨-, -, -, hstill, hinb⟩ | ⟨hwait, hidle, hstill, hinb⟩
  · refine inv_foreign h hkept (foreign_of_looser
      (Or.inl (hstill _ htty.symm)) (Or.inl (hstill _ hfs.symm))) hout' ?_ ?_
    · rw [hinb]
      exact h.inb
    · rw [hinb]
      exact Or.inl rfl
  · refine inv_foreign h hkept (foreign_of_looser ?_ ?_) hout' ?_ ?_
    · by_cases hr : TASK_TTY = r
      · rw [hr]
        exact Or.inr hidle
      · exact Or.inl (hstill _ hr)
    · by_cases hr : TASK_FS = r
      · subst hr
        refine Or.inr ⟨hidle, ?_⟩
        rintro ⟨-, -, hfrom⟩
        rcases hwait.2 with hsrc | hany
        · rw [hfrom] at hsrc
          exact htty hsrc.symm
        · rw [hfrom] at hany
          exact absurd hany (by decide)
      · exact Or.inl (hstill _ hr)
    · rw [hinb]
      refine fits_setInb h.inb fun q msg' hv => ?_
      obtain ⟨rfl, rfl⟩ := Prod.mk.inj (Option.some.inj hv)
      exact hfits
    · rw [hinb]
      by_cases hr : TASK_TTY = r
      · subst hr
        exact Or.inr ⟨p, msg, setInb_self s _ _, hnotdev⟩
      · exact Or.inl (setInb_of_ne s _ hr)

/-- **ANOTHER PROCESS RECEIVES**. -/
theorem inv_foreignRcv (h : Inv s) (hfs : p ≠ TASK_FS) (htty : p ≠ TASK_TTY)
    (hcall : s.rcv x p src = .ok s') : Inv s' := by
  obtain ⟨hkept, hout, heff⟩ := rcv_spec hcall
  have hout' : ∀ q, Fits q (s'.out q) := by
    rw [hout]
    exact h.out
  have hne : s'.inb TASK_TTY = s.inb TASK_TTY := by
    rcases heff with ⟨-, -, hinb⟩ | ⟨q, -, -, -, -, -, hinb⟩ |
      ⟨-, -, -, -, -, hinb⟩ <;>
    rw [hinb, setInb_of_ne s _ htty.symm]
  rcases heff with ⟨-, hstill, hinb⟩ | ⟨q, -, hst, -, hidle, hstill, hinb⟩ |
    ⟨-, -, -, -, hstill, hinb⟩
  · refine inv_foreign h hkept (foreign_of_looser
      (Or.inl (hstill _)) (Or.inl (hstill _))) hout' ?_ (Or.inl hne)
    rw [hinb]
    refine fits_setInb h.inb fun q msg hv => ?_
    obtain ⟨rfl, rfl⟩ := Prod.mk.inj (Option.some.inj hv)
    trivial
  · refine inv_foreign h hkept (foreign_of_looser ?_ ?_) hout' ?_ (Or.inl hne)
    · by_cases hq : TASK_TTY = q
      · rw [hq]
        exact Or.inr hidle
      · exact Or.inl (hstill _ hq)
    · by_cases hq : TASK_FS = q
      · subst hq
        refine Or.inr ⟨hidle, ?_⟩
        rintro ⟨hr, -, -⟩
        rw [hst] at hr
        cases hr
      · exact Or.inl (hstill _ hq)
    · rw [hinb]
      refine fits_setInb h.inb fun y msg hv => ?_
      obtain ⟨rfl, rfl⟩ := Prod.mk.inj (Option.some.inj hv)
      exact h.out _
  · refine inv_foreign h hkept (foreign_of_looser
      (Or.inl (hstill _ htty.symm)) (Or.inl (hstill _ hfs.symm))) hout' ?_
      (Or.inl hne)
    rw [hinb]
    exact fits_setInb h.inb fun y msg hv => by cases hv

/-- **AN INTERRUPT** comes. -/
theorem inv_hwInt (h : Inv s) {T' : Table} {w : List Write}
    (hp : p = TASK_TTY ∨ p = TASK_HD)
    (hcall : hwIntNotification s.table p = .ok (T', w)) :
    Inv ({ s with table := T' }.settle w) := by
  have hfs : TASK_FS ≠ p := by
    rcases hp with rfl | rfl <;> decide
  obtain ⟨hkept, htab, hout⟩ := kept_settle { s with table := T' } w
  have hkept' : Kept s ({ s with table := T' }.settle w) :=
    ⟨hkept.tty, hkept.fs, hkept.ttyTable⟩
  have hout' : ∀ q, Fits q ((Sys.settle { s with table := T' } w).out q) := by
    rw [hout]
    exact h.out
  rcases hwInt_effect hcall with ⟨⟨dst, rfl⟩, -, hidle, hstill⟩ | ⟨rfl, hstill⟩
  · refine inv_foreign h hkept' (foreign_of_looser ?_ ?_) hout' ?_ ?_
    · rw [htab]
      by_cases hq : TASK_TTY = p
      · rw [hq]
        exact Or.inr hidle
      · exact Or.inl (hstill _ hq)
    · rw [htab]
      exact Or.inl (hstill _ hfs)
    · refine fits_setInb h.inb fun q msg hv => ?_
      obtain ⟨rfl, rfl⟩ := Prod.mk.inj (Option.some.inj hv)
      trivial
    · by_cases hq : TASK_TTY = p
      · subst hq
        exact Or.inr ⟨INTERRUPT, .hwInt, setInb_self s _ _, rfl⟩
      · exact Or.inl (setInb_of_ne s _ hq)
  · refine inv_foreign h hkept' (foreign_of_looser ?_ ?_) hout' ?_ (Or.inl rfl)
    · rw [htab]
      exact Or.inl (hstill _)
    · rw [htab]
      exact Or.inl (hstill _)
    · exact h.inb

/-! ## TTY -/

/-- The fields of the table that keys cannot change. -/
theorem reads_ttyProcessKey (i j : Nat) (s : Sys) (key : BitVec 32) :
    ((ttyProcessKey i s key).ttyTable j).ttyLeftCnt =
        (s.ttyTable j).ttyLeftCnt ∧
      ((ttyProcessKey i s key).ttyTable j).ttyProcnr =
        (s.ttyTable j).ttyProcnr := by
  have henq : ∀ k, ((s.setTty i (ttyKeyEnqueue (s.ttyTable i) k)).ttyTable
        j).ttyLeftCnt = (s.ttyTable j).ttyLeftCnt ∧
      ((s.setTty i (ttyKeyEnqueue (s.ttyTable i) k)).ttyTable j).ttyProcnr =
        (s.ttyTable j).ttyProcnr := by
    intro k
    simp only [Sys.setTty, ttyKeyEnqueue]
    by_cases hj : j = i
    · subst hj
      rw [if_pos rfl]
      split <;> exact ⟨rfl, rfl⟩
    · rw [if_neg hj]
      exact ⟨rfl, rfl⟩
  rw [ttyProcessKey]
  split
  · exact henq key
  · dsimp only
    split
    · exact henq _
    · split
      · exact henq _
      · split
        · rw [switchConsole]
          split <;> exact ⟨rfl, rfl⟩
        · exact ⟨rfl, rfl⟩

/-- Keys change the key queues and the current console only. -/
structure KeysOnly (s s' : Sys) : Prop where
  table : s'.table = s.table
  out : s'.out = s.out
  inb : s'.inb = s.inb
  fs : s'.fs = s.fs
  left : ∀ j, (s'.ttyTable j).ttyLeftCnt = (s.ttyTable j).ttyLeftCnt
  procnr : ∀ j, (s'.ttyTable j).ttyProcnr = (s.ttyTable j).ttyProcnr

/-- A key changes its terminal only. -/
theorem keysOnly_ttyProcessKey (i : Nat) (s : Sys) (key : BitVec 32) :
    KeysOnly s (ttyProcessKey i s key) := by
  have hrest : (ttyProcessKey i s key).table = s.table ∧
      (ttyProcessKey i s key).out = s.out ∧
      (ttyProcessKey i s key).inb = s.inb ∧
      (ttyProcessKey i s key).fs = s.fs := by
    rw [ttyProcessKey]
    split
    · exact ⟨rfl, rfl, rfl, rfl⟩
    · dsimp only
      split
      · exact ⟨rfl, rfl, rfl, rfl⟩
      · split
        · exact ⟨rfl, rfl, rfl, rfl⟩
        · split
          · rw [switchConsole]
            split <;> exact ⟨rfl, rfl, rfl, rfl⟩
          · exact ⟨rfl, rfl, rfl, rfl⟩
  exact ⟨hrest.1, hrest.2.1, hrest.2.2.1, hrest.2.2.2,
    fun j => (reads_ttyProcessKey i j s key).1,
    fun j => (reads_ttyProcessKey i j s key).2⟩

/-- So do all keys of a reading. -/
theorem keysOnly_ttyDevRead (s : Sys) (i : Nat) (keys : List (BitVec 32)) :
    KeysOnly s (ttyDevRead s i keys) := by
  rw [ttyDevRead]
  split
  · rename_i hcons
    clear hcons
    induction keys generalizing s with
    | nil => exact ⟨rfl, rfl, rfl, rfl, fun _ => rfl, fun _ => rfl⟩
    | cons key keys ih =>
        have hkey := keysOnly_ttyProcessKey i s key
        have hkeys := ih (ttyProcessKey i s key)
        exact ⟨hkeys.table.trans hkey.table, hkeys.out.trans hkey.out,
          hkeys.inb.trans hkey.inb, hkeys.fs.trans hkey.fs,
          fun j => (hkeys.left j).trans (hkey.left j),
          fun j => (hkeys.procnr j).trans (hkey.procnr j)⟩
  · exact ⟨rfl, rfl, rfl, rfl, fun _ => rfl, fun _ => rfl⟩

/-- A step of TTY between two calls. -/
theorem inv_ttyLocal (h : Inv s) (hidle : Idle (s.table TASK_TTY))
    (htable : s'.table = s.table) (hout : s'.out = s.out)
    (hinb : s'.inb = s.inb) (hfs : s'.fs = s.fs)
    (hreader : ∀ i, (s'.ttyTable i).ttyLeftCnt ≠ 0 ∨ s'.tty = .resume i →
      (s'.ttyTable i).ttyProcnr ≠ TASK_TTY)
    (hanswer : ∀ pid msg, s'.tty = .reply pid msg → Fits TASK_TTY msg)
    (hserving : TtyServes s' → FsWaits s)
    (hquiet : SendingTo s.table TASK_FS TASK_TTY → ∀ i, ¬ Reading s' i) :
    Inv s' := by
  constructor
  case out =>
    rw [hout]
    exact h.out
  case inb =>
    rw [hinb]
    exact h.inb
  case client =>
    rw [hfs]
    exact h.client
  case driver =>
    rw [hfs]
    exact h.driver
  case reader => exact hreader
  case answer => exact hanswer
  case ttyRcv =>
    intro hr
    rw [htable, hidle.2] at hr
    cases hr
  case ttySnd =>
    intro hs
    rw [htable, hidle.1] at hs
    cases hs
  case answered =>
    intro hs
    rw [htable] at hs
    exact absurd (hs.1.symm.trans hidle.1) (by decide)
  case fsSnd =>
    rw [htable, hfs]
    exact h.fsSnd
  case fsFrom =>
    rw [htable, hfs]
    exact h.fsFrom
  case serving =>
    intro hs
    rw [FsWaits, htable, hfs]
    exact hserving hs
  case quiet =>
    rw [htable]
    exact hquiet

/-- No read starts and none is resumed by a step that ends elsewhere. -/
theorem not_reading_of_left {i : Nat}
    (hpc : ∀ j, s'.tty ≠ .resume j ∧ s'.tty ≠ .resumed j)
    (hleft : (s'.ttyTable i).ttyLeftCnt = 0) : ¬ Reading s' i := by
  rintro (⟨hne, -⟩ | hr | ⟨hr, -⟩)
  · exact hne hleft
  · exact (hpc i).1 hr
  · exact (hpc i).2 hr

/-- A terminal without a reader has nothing left to give. -/
theorem left_of_not_reading {i : Nat} (h : ¬ Reading s i)
    (hpc : s.tty ≠ .resumed i) : (s.ttyTable i).ttyLeftCnt = 0 := by
  by_contra hne
  exact h (Or.inl ⟨hne, hpc⟩)

theorem not_serves (hpc : ∀ pid msg, s.tty ≠ .reply pid msg)
    (hserve : s.tty ≠ .serve) : ¬ TtyServes s := by
  rintro (⟨pid, msg, hr⟩ | ⟨hs, -⟩)
  · exact hpc pid msg hr
  · exact hserve hs

/-- `tty_dev_read` keeps the invariant. -/
theorem inv_ttyDevRead (h : Inv s) (hidle : Idle (s.table TASK_TTY)) {i : Nat}
    (hpc : s.tty = .devRead i) (keys : List (BitVec 32)) :
    Inv { ttyDevRead s i keys with tty := .devWrite i } := by
  have hkeys := keysOnly_ttyDevRead s i keys
  refine inv_ttyLocal h hidle hkeys.table hkeys.out hkeys.inb hkeys.fs
    ?_ ?_ ?_ ?_
  · intro j hj
    show ((ttyDevRead s i keys).ttyTable j).ttyProcnr ≠ TASK_TTY
    rw [hkeys.procnr]
    rcases hj with hl | hr
    · change ((ttyDevRead s i keys).ttyTable j).ttyLeftCnt ≠ 0 at hl
      rw [hkeys.left] at hl
      exact h.reader j (Or.inl hl)
    · cases hr
  · intro pid msg hr
    cases hr
  · intro hs
    exact absurd hs (not_serves (fun _ _ hr => by cases hr)
      (fun hr => by cases hr))
  · intro hsnd j
    refine not_reading_of_left (fun k => ⟨fun hr => ?_, fun hr => ?_⟩) ?_
    · cases hr
    · cases hr
    · refine (hkeys.left j).trans
        (left_of_not_reading (h.quiet hsnd j) ?_)
      rw [hpc]
      simp

theorem nextTty_ne (i : Nat) : (∀ j, nextTty i ≠ .resume j ∧
    nextTty i ≠ .resumed j) ∧ (∀ pid msg, nextTty i ≠ .reply pid msg) ∧
    nextTty i ≠ .serve := by
  rw [nextTty]
  split <;> simp

/-- What one round of `tty_dev_write` leaves of the reads. -/
theorem ttyDevWrite_cases (s : Sys) {i : Nat} (hpc : s.tty = .devWrite i) :
    (ttyDevWrite s i).table = s.table ∧ (ttyDevWrite s i).out = s.out ∧
    (ttyDevWrite s i).inb = s.inb ∧ (ttyDevWrite s i).fs = s.fs ∧
    (∀ j, ((ttyDevWrite s i).ttyTable j).ttyProcnr =
      (s.ttyTable j).ttyProcnr) ∧
    (((ttyDevWrite s i).tty = .devWrite i ∨
        (ttyDevWrite s i).tty = nextTty i) ∧
      (∀ j, ((ttyDevWrite s i).ttyTable j).ttyLeftCnt ≠ 0 →
        (s.ttyTable j).ttyLeftCnt ≠ 0) ∨
      (ttyDevWrite s i).tty = .resume i ∧ (s.ttyTable i).ttyLeftCnt ≠ 0 ∧
      ∀ j, ((ttyDevWrite s i).ttyTable j).ttyLeftCnt ≠ 0 →
        (s.ttyTable j).ttyLeftCnt ≠ 0) := by
  have htake : ∀ (t : Tty) (ch : BitVec 8),
      (takeChar t ch).ttyProcnr = t.ttyProcnr := by
    intro t ch
    rw [takeChar]
    split
    · rfl
    · split <;> rfl
  have hset : ∀ t : Tty, t.ttyProcnr = (s.ttyTable i).ttyProcnr →
      ∀ j, ((s.setTty i t).ttyTable j).ttyProcnr =
        (s.ttyTable j).ttyProcnr := by
    intro t ht j
    simp only [Sys.setTty]
    by_cases hj : j = i
    · rw [if_pos hj, hj]
      exact ht
    · rw [if_neg hj]
  have hleft : ∀ t : Tty, (t.ttyLeftCnt ≠ 0 → (s.ttyTable i).ttyLeftCnt ≠ 0) →
      ∀ j, ((s.setTty i t).ttyTable j).ttyLeftCnt ≠ 0 →
        (s.ttyTable j).ttyLeftCnt ≠ 0 := by
    intro t ht j
    simp only [Sys.setTty]
    by_cases hj : j = i
    · rw [if_pos hj, hj]
      exact ht
    · rw [if_neg hj]
      exact id
  rw [ttyDevWrite]
  split
  · exact ⟨rfl, rfl, rfl, rfl, fun _ => rfl,
      Or.inl ⟨Or.inr rfl, fun _ hl => hl⟩⟩
  · rename_i key keys hkeys
    dsimp only
    split
    · rename_i hne
      split
      · exact ⟨rfl, rfl, rfl, rfl, hset _ (htake _ _),
          Or.inr ⟨rfl, hne, hleft _ fun _ => hne⟩⟩
      · exact ⟨rfl, rfl, rfl, rfl, hset _ (htake _ _),
          Or.inl ⟨Or.inl hpc, hleft _ fun _ => hne⟩⟩
    · exact ⟨rfl, rfl, rfl, rfl, hset _ rfl,
        Or.inl ⟨Or.inl hpc, hleft _ id⟩⟩

/-- `tty_dev_write` keeps it. -/
theorem inv_ttyDevWrite (h : Inv s) (hidle : Idle (s.table TASK_TTY)) {i : Nat}
    (hpc : s.tty = .devWrite i) : Inv (ttyDevWrite s i) := by
  obtain ⟨htable, hout, hinb, hfs, hprocnr, hcases⟩ := ttyDevWrite_cases s hpc
  have hne : s.tty ≠ .resumed i := by rw [hpc]; simp
  refine inv_ttyLocal h hidle htable hout hinb hfs ?_ ?_ ?_ ?_
  · intro j hj
    rw [hprocnr]
    refine h.reader j (Or.inl ?_)
    rcases hcases with ⟨hpc', hleft⟩ | ⟨hpc', hl, hleft⟩
    · rcases hj with hj | hj
      · exact hleft j hj
      · rcases hpc' with hp | hp <;> rw [hp] at hj
        · cases hj
        · exact absurd hj ((nextTty_ne i).1 j).1
    · rcases hj with hj | hj
      · exact hleft j hj
      · rw [hpc'] at hj
        cases hj
        exact hl
  · intro pid msg hr
    rcases hcases with ⟨hpc' | hpc', -⟩ | ⟨hpc', -⟩ <;> rw [hpc'] at hr
    · cases hr
    · exact absurd hr ((nextTty_ne i).2.1 pid msg)
    · cases hr
  · intro hs
    refine absurd hs (not_serves (fun pid msg hr => ?_) fun hr => ?_) <;>
      rcases hcases with ⟨hpc' | hpc', -⟩ | ⟨hpc', -⟩ <;> rw [hpc'] at hr
    · cases hr
    · exact absurd hr ((nextTty_ne i).2.1 pid msg)
    · cases hr
    · cases hr
    · exact absurd hr (nextTty_ne i).2.2
    · cases hr
  · intro hsnd
    have hzero : ∀ j, (s.ttyTable j).ttyLeftCnt = 0 := by
      intro j
      refine left_of_not_reading (h.quiet hsnd j) ?_
      rw [hpc]
      simp
    rcases hcases with ⟨hpc', hleft⟩ | ⟨-, hl, -⟩
    · intro j
      refine not_reading_of_left (fun k => ?_) ?_
      · rcases hpc' with hp | hp <;> rw [hp]
        · simp
        · exact (nextTty_ne i).1 k
      · by_contra hne'
        exact hleft j hne' (hzero j)
    · exact absurd (hzero i) hl

/-- What follows a `RESUME_PROC` keeps it. -/
theorem inv_ttyResumed (h : Inv s) (hidle : Idle (s.table TASK_TTY)) {i : Nat}
    (hpc : s.tty = .resumed i) :
    Inv { s.setTty i { s.ttyTable i with ttyLeftCnt := 0 } with
      tty := .devWrite i } := by
  have hleft : ∀ j, ((s.setTty i { s.ttyTable i with
      ttyLeftCnt := 0 }).ttyTable j).ttyLeftCnt ≠ 0 →
      j ≠ i ∧ (s.ttyTable j).ttyLeftCnt ≠ 0 := by
    intro j hj
    simp only [Sys.setTty] at hj
    by_cases hji : j = i
    · rw [if_pos hji] at hj
      exact absurd rfl hj
    · rw [if_neg hji] at hj
      exact ⟨hji, hj⟩
  refine inv_ttyLocal h hidle rfl rfl rfl rfl ?_ ?_ ?_ ?_
  · intro j hj
    rcases hj with hj | hj
    · obtain ⟨hji, hl⟩ := hleft j hj
      have hold := h.reader j (Or.inl hl)
      simpa [Sys.setTty, hji] using hold
    · cases hj
  · intro pid msg hr
    cases hr
  · intro hs
    exact absurd hs (not_serves (fun _ _ hr => by cases hr)
      (fun hr => by cases hr))
  · intro hsnd j
    refine not_reading_of_left (fun k => ⟨fun hr => ?_, fun hr => ?_⟩) ?_
    · cases hr
    · cases hr
    · by_contra hne
      obtain ⟨hji, hl⟩ := hleft j hne
      refine h.quiet hsnd j (Or.inl ⟨hl, ?_⟩)
      rw [hpc]
      intro heq
      cases heq
      exact hji rfl

/-- What TTY does with a message keeps it. -/
theorem inv_ttyServe (h : Inv s) (hidle : Idle (s.table TASK_TTY))
    (hpc : s.tty = .serve) (hcall : ttyServe s = .ok s') : Inv s' := by
  unfold ttyServe at hcall
  split at hcall
  · cases hcall
  · rename_i pid msg hmsg
    simp only [bind_eq_ok, assert_eq_ok, exists_const] at hcall
    obtain ⟨-, hcall⟩ := hcall
    have hfits := h.inb TASK_TTY pid msg hmsg
    have hnone : ∀ j, s.tty ≠ .resumed j := by
      intro j hr
      rw [hpc] at hr
      cases hr
    -- a message of the driver's interface comes from FS, which waits
    have hserves : msg.isDev = true → FsWaits s := fun hdev =>
      h.serving (Or.inr ⟨hpc, pid, msg, hmsg, hdev⟩)
    have hleft : SendingTo s.table TASK_FS TASK_TTY →
        ∀ j, (s.ttyTable j).ttyLeftCnt = 0 := fun hsnd j =>
      left_of_not_reading (h.quiet hsnd j) (hnone j)
    have hbusy : msg.isDev = true → ¬ SendingTo s.table TASK_FS TASK_TTY := by
      intro hdev hsnd
      have hidle' := (hserves hdev).1
      rw [hsnd.1] at hidle'
      cases hidle'
    split at hcall
    · obtain rfl := pure_eq_ok.mp hcall
      refine inv_ttyLocal h hidle rfl rfl rfl rfl ?_ ?_ ?_ ?_
      · intro j hj
        rcases hj with hj | hj
        · exact h.reader j (Or.inl hj)
        · cases hj
      · intro pid' msg' hr
        cases hr
        trivial
      · exact fun _ => hserves rfl
      · exact fun hsnd => absurd hsnd (hbusy rfl)
    · rename_i minor procNr cnt
      obtain rfl := pure_eq_ok.mp hcall
      refine inv_ttyLocal h hidle rfl rfl rfl rfl ?_ ?_ ?_ ?_
      · intro j hj
        rcases hj with hj | hj
        · simp only [Sys.setTty] at hj ⊢
          by_cases hjm : j = minor
          · rw [if_pos hjm]
            exact hfits.2
          · rw [if_neg hjm] at hj ⊢
            exact h.reader j (Or.inl hj)
        · cases hj
      · intro pid' msg' hr
        cases hr
        trivial
      · exact fun _ => hserves rfl
      · exact fun hsnd => absurd hsnd (hbusy rfl)
    · obtain rfl := pure_eq_ok.mp hcall
      refine inv_ttyLocal h hidle rfl rfl rfl rfl ?_ ?_ ?_ ?_
      · intro j hj
        rcases hj with hj | hj
        · exact h.reader j (Or.inl hj)
        · cases hj
      · intro pid' msg' hr
        cases hr
        trivial
      · exact fun _ => hserves rfl
      · exact fun hsnd => absurd hsnd (hbusy rfl)
    · obtain rfl := pure_eq_ok.mp hcall
      refine inv_ttyLocal h hidle rfl rfl rfl rfl ?_ ?_ ?_ ?_
      · intro j hj
        rcases hj with hj | hj
        · exact h.reader j (Or.inl hj)
        · cases hj
      · intro pid' msg' hr
        cases hr
      · intro hs
        exact absurd hs (not_serves (fun _ _ hr => by cases hr)
          (fun hr => by cases hr))
      · intro hsnd j
        refine not_reading_of_left (fun k => ⟨fun hr => ?_, fun hr => ?_⟩)
          (hleft hsnd j)
        · cases hr
        · cases hr

/-- A SEND of TTY, to whoever has called it. -/
theorem inv_ttySend (h : Inv s) (hrun : (s.table TASK_TTY).procState = RUNNABLE)
    {pc : TtyPc} (hfits : Fits TASK_TTY msg)
    (hpc : (∃ i, pc = .resumed i) ∨ pc = .devRead 0)
    (hquiet : ¬ SendingTo s.table TASK_FS TASK_TTY)
    (hanswer : pc = .devRead 0 → FsWaits s)
    (hcall : { s with tty := pc }.send x TASK_TTY r msg = .ok s') :
    Inv s' := by
  obtain ⟨hkept, hout, heff⟩ := send_spec hcall hrun
  obtain ⟨htty, hfs, htt⟩ := hkept
  have hne : pc ≠ .serve ∧ (∀ i, pc ≠ .resume i) ∧
      ∀ pid m, pc ≠ .reply pid m := by
    rcases hpc with ⟨i, rfl⟩ | rfl <;> simp
  have hloose : Looser (s'.table TASK_FS) (s.table TASK_FS) := by
    rcases heff with ⟨-, -, -, hstill, -⟩ | ⟨-, hidle, hstill, -⟩
    · exact Or.inl (hstill _ (by decide))
    · by_cases hr : TASK_FS = r
      · rw [hr]
        exact Or.inr hidle
      · exact Or.inl (hstill _ hr)
  have hnosnd : ¬ SendingTo s'.table TASK_FS TASK_TTY :=
    fun hs => hquiet (sendingTo_of_looser hloose hs)
  constructor
  case out =>
    rw [hout]
    exact fits_setOut h.out hfits
  case inb =>
    rcases heff with ⟨-, -, -, -, hinb⟩ | ⟨-, -, -, hinb⟩ <;> rw [hinb]
    · exact h.inb
    · refine fits_setInb h.inb fun q msg' hv => ?_
      obtain ⟨rfl, rfl⟩ := Prod.mk.inj (Option.some.inj hv)
      exact hfits
  case client =>
    rw [hfs]; exact h.client
  case driver =>
    rw [hfs]; exact h.driver
  case reader =>
    rw [htty, htt]
    intro i hi
    rcases hi with hi | hi
    · exact h.reader i (Or.inl hi)
    · exact absurd hi (hne.2.1 i)
  case answer =>
    rw [htty]
    intro pid msg' hr
    exact absurd hr (hne.2.2 pid msg')
  case ttyRcv =>
    intro hr
    have hidle := (idle_of_runnable hrun).2
    rcases heff with ⟨-, -, hrec, -⟩ | ⟨-, hidle', hstill, -⟩
    · rw [hrec] at hr
      cases hr
    · by_cases heq : TASK_TTY = r
      · rw [← heq] at hidle'
        rw [hidle'.2] at hr
        cases hr
      · rw [(hstill _ heq).receiving] at hr
        exact absurd (hr.symm.trans hidle) (by decide)
  case ttySnd =>
    intro _
    rw [htty]
    exact hpc
  case answered =>
    -- an answer that blocks finds FS before its RECEIVE
    intro hs hdev
    rw [htty] at hdev
    rw [hfs]
    rcases heff with ⟨hnot, hto, -⟩ | ⟨-, hidle, hstill, -⟩
    · obtain rfl : TASK_FS = r := hs.2.symm.trans hto.2
      obtain ⟨-, hhear | ⟨hheard, hrec⟩⟩ := hanswer hdev
      · exact hhear
      · exact absurd ⟨hrec, Or.inl (h.fsFrom hrec hheard)⟩ hnot
    · by_cases heq : TASK_TTY = r
      · rw [← heq] at hidle
        exact absurd (hs.1.symm.trans hidle.1) (by decide)
      · have hrest := (idle_of_runnable hrun).1
        have hsending := (hstill _ heq).sending.symm.trans hs.1
        exact absurd (hsending.symm.trans hrest) (by decide)
  case fsSnd =>
    exact fun hs => absurd hs hnosnd
  case fsFrom =>
    rw [hfs]
    intro hr hheard
    rcases hloose with hst | hidle
    · rw [hst.source]
      exact h.fsFrom (hst.receiving ▸ hr) hheard
    · rw [hidle.2] at hr
      cases hr
  case serving =>
    intro hs
    refine absurd hs (not_serves ?_ ?_) <;> rw [htty]
    · exact hne.2.2
    · exact hne.1
  case quiet =>
    exact fun hs => absurd hs hnosnd

/-- Its RECEIVE keeps it. -/
theorem inv_ttyReceive (h : Inv s)
    (hrun : (s.table TASK_TTY).procState = RUNNABLE) (hpc : s.tty = .receive)
    (hcall : { s with tty := .serve }.rcv x TASK_TTY ANY = .ok s') :
    Inv s' := by
  obtain ⟨hkept, hout, heff⟩ := rcv_spec hcall
  obtain ⟨htty, hfs, htt⟩ := hkept
  change s'.tty = .serve at htty
  have hidle := idle_of_runnable hrun
  have hsending : (s'.table TASK_TTY).procState.sending = false := by
    rcases heff with ⟨-, hstill, -⟩ | ⟨q, -, hst, -, -, hstill, -⟩ |
      ⟨-, -, hsnd, -⟩
    · rw [(hstill _).sending]
      exact hidle.1
    · have hne : TASK_TTY ≠ q := by
        rintro rfl
        change (s.table TASK_TTY).procState = SENDING at hst
        rw [hrun] at hst
        cases hst
      rw [(hstill _ hne).sending]
      exact hidle.1
    · rw [hsnd]
      exact hidle.1
  have hloose : Looser (s'.table TASK_FS) (s.table TASK_FS) := by
    rcases heff with ⟨-, hstill, -⟩ | ⟨q, -, -, -, hidle', hstill, -⟩ |
      ⟨-, -, -, -, hstill, -⟩
    · exact Or.inl (hstill _)
    · by_cases hq : TASK_FS = q
      · rw [hq]
        exact Or.inr hidle'
      · exact Or.inl (hstill _ hq)
    · exact Or.inl (hstill _ (by decide))
  have hsnd : SendingTo s'.table TASK_FS TASK_TTY →
      SendingTo s.table TASK_FS TASK_TTY := sendingTo_of_looser hloose
  constructor
  case out =>
    rw [hout]; exact h.out
  case inb =>
    rcases heff with ⟨-, -, hinb⟩ | ⟨q, -, -, -, -, -, hinb⟩ |
      ⟨-, -, -, -, -, hinb⟩ <;> rw [hinb]
    · refine fits_setInb h.inb fun q msg hv => ?_
      obtain ⟨rfl, rfl⟩ := Prod.mk.inj (Option.some.inj hv)
      trivial
    · refine fits_setInb h.inb fun y msg hv => ?_
      obtain ⟨rfl, rfl⟩ := Prod.mk.inj (Option.some.inj hv)
      exact h.out _
    · exact fits_setInb h.inb fun y msg hv => by cases hv
  case client =>
    rw [hfs]; exact h.client
  case driver =>
    rw [hfs]; exact h.driver
  case reader =>
    rw [htty, htt]
    intro i hi
    rcases hi with hi | hi
    · exact h.reader i (Or.inl hi)
    · cases hi
  case answer =>
    rw [htty]
    intro pid msg hr
    cases hr
  case ttyRcv =>
    exact fun _ => htty
  case ttySnd =>
    intro hs
    rw [hsending] at hs
    cases hs
  case answered =>
    intro hs
    exact absurd (hs.1.symm.trans hsending) (by decide)
  case fsSnd =>
    rw [hfs]
    exact fun hs => h.fsSnd (hsnd hs)
  case fsFrom =>
    rw [hfs]
    intro hr hheard
    rcases hloose with hst | hidle'
    · rw [hst.source]
      exact h.fsFrom (hst.receiving ▸ hr) hheard
    · rw [hidle'.2] at hr
      cases hr
  case serving =>
    -- a message of the driver's interface is the one FS was SENDING
    rintro (⟨pid, msg, hr⟩ | ⟨-, q', msg, hm, hdev⟩)
    · rw [htty] at hr
      cases hr
    · rcases heff with ⟨-, -, hinb⟩ | ⟨q, -, -, hto, hidle', -, hinb⟩ |
        ⟨-, -, -, -, -, hinb⟩ <;> rw [hinb, setInb_self] at hm
      · obtain ⟨rfl, rfl⟩ := Prod.mk.inj (Option.some.inj hm)
        cases hdev
      · obtain ⟨rfl, rfl⟩ := Prod.mk.inj (Option.some.inj hm)
        obtain rfl := fs_of_dev (h.out q) hdev
        obtain ⟨src, msg, hhear⟩ := h.fsSnd hto
        exact ⟨hidle'.1, Or.inl ⟨src, msg, hfs.trans hhear⟩⟩
      · cases hm
  case quiet =>
    intro hs i
    refine not_reading_of_left (fun k => ?_) ?_
    · rw [htty]
      simp
    · have hzero : (s.ttyTable i).ttyLeftCnt = 0 :=
        left_of_not_reading (h.quiet (hsnd hs) i) (by rw [hpc]; simp)
      rw [htt]
      exact hzero

/-- **TTY** keeps the invariant, one case for each place it can be. -/
theorem inv_ttyStep (h : Inv s) (hrun : (s.table TASK_TTY).procState = RUNNABLE)
    {keys : List (BitVec 32)} (hcall : ttyStep x keys s = .ok s') : Inv s' := by
  have hidle := idle_of_runnable hrun
  cases hpc : s.tty with
  | devRead i =>
      simp only [ttyStep, hpc, pure_eq_ok] at hcall
      subst hcall
      exact inv_ttyDevRead h hidle hpc keys
  | devWrite i =>
      simp only [ttyStep, hpc, pure_eq_ok] at hcall
      subst hcall
      exact inv_ttyDevWrite h hidle hpc
  | resume i =>
      simp only [ttyStep, hpc] at hcall
      have hfits : Fits TASK_TTY (.resumeProc (s.ttyTable i).ttyProcnr
          (s.ttyTable i).ttyTransCnt) := h.reader i (Or.inr hpc)
      refine inv_ttySend h hrun hfits (Or.inl ⟨i, rfl⟩) ?_ ?_ hcall
      · exact fun hsnd => h.quiet hsnd i (Or.inr (Or.inl hpc))
      · intro hdev
        cases hdev
  | resumed i =>
      simp only [ttyStep, hpc, pure_eq_ok] at hcall
      subst hcall
      exact inv_ttyResumed h hidle hpc
  | receive =>
      simp only [ttyStep, hpc] at hcall
      exact inv_ttyReceive h hrun hpc hcall
  | serve =>
      simp only [ttyStep, hpc] at hcall
      exact inv_ttyServe h hidle hpc hcall
  | reply pid msg =>
      simp only [ttyStep, hpc] at hcall
      have hwait := h.serving (Or.inl ⟨pid, msg, hpc⟩)
      refine inv_ttySend h hrun (h.answer pid msg hpc) (Or.inr rfl) ?_
        (fun _ => hwait) hcall
      exact fun hsnd => absurd (hsnd.1.symm.trans hwait.1) (by decide)

/-! ## FS -/

/-- While FS runs outside its exchange with TTY, TTY has nothing to answer. -/
theorem not_serves_of_fs (h : Inv s) (hidle : Idle (s.table TASK_FS))
    (hpc : ∀ src msg, s.fs ≠ .hearTty src msg) : ¬ TtyServes s := by
  intro hs
  obtain ⟨-, ⟨src, msg, hhear⟩ | ⟨-, hrec⟩⟩ := h.serving hs
  · exact hpc src msg hhear
  · rw [hidle.2] at hrec
    cases hrec

/-- A step of FS between two calls. -/
theorem inv_fsLocal (h : Inv s) (hidle : Idle (s.table TASK_FS))
    (hpc : ∀ src msg, s.fs ≠ .hearTty src msg) {pc : FsPc}
    (hclient : ∀ src, pc.client = some src → src ≠ TASK_TTY)
    (hdriver : ∀ src msg, pc = .callTty src msg → Fits TASK_FS msg) :
    Inv { s with fs := pc } :=
  have hserves := not_serves_of_fs h hidle hpc
  { h with
    client := hclient
    driver := hdriver
    answered := fun hs hdev => by
      obtain ⟨src, msg, hhear⟩ := h.answered hs hdev
      exact absurd hhear (hpc src msg)
    fsSnd := fun hs => absurd (hs.1.symm.trans hidle.1) (by decide)
    fsFrom := fun hr => absurd (hr.symm.trans hidle.2) (by decide)
    serving := fun hs => absurd hs hserves }

/-- What FS does with a message keeps it. -/
theorem inv_fsServe (h : Inv s) (hidle : Idle (s.table TASK_FS))
    (hpc : s.fs = .serve) (hcall : fsServe s = .ok s') : Inv s' := by
  have hne : ∀ src msg, s.fs ≠ .hearTty src msg := by
    intro src msg hh
    rw [hpc] at hh
    cases hh
  unfold fsServe at hcall
  split at hcall
  · rename_i src dev hmsg
    obtain rfl := pure_eq_ok.mp hcall
    refine inv_fsLocal h hidle hne ?_ ?_
    · intro q hq
      cases hq
      exact h.inb TASK_FS src _ hmsg
    · intro q msg hq
      cases hq
  · rename_i src write minor cnt hmsg
    obtain rfl := pure_eq_ok.mp hcall
    have hsrc : src ≠ TASK_TTY := h.inb TASK_FS src _ hmsg
    refine inv_fsLocal h hidle hne ?_ ?_
    · intro q hq
      cases hq
      exact hsrc
    · intro q msg hq
      cases hq
      cases write
      · exact ⟨rfl, hsrc⟩
      · rfl
  · rename_i src write cnt hmsg
    obtain rfl := pure_eq_ok.mp hcall
    refine inv_fsLocal h hidle hne ?_ ?_
    · intro q hq
      cases hq
      exact h.inb TASK_FS src _ hmsg
    · intro q msg hq
      cases hq
  · rename_i src hmsg
    obtain rfl := pure_eq_ok.mp hcall
    refine inv_fsLocal h hidle hne ?_ ?_
    · intro q hq
      cases hq
      exact h.inb TASK_FS src _ hmsg
    · intro q msg hq
      cases hq
  · rename_i src procNr cnt hmsg
    obtain rfl := pure_eq_ok.mp hcall
    refine inv_fsLocal h hidle hne ?_ ?_
    · intro q hq
      cases hq
      exact h.inb TASK_FS src _ hmsg
    · intro q msg hq
      cases hq
  · cases hcall

/-- What FS does with the answer keeps it. -/
theorem inv_fsHeard (h : Inv s) (hidle : Idle (s.table TASK_FS)) {src : Int}
    (hpc : s.fs = .heard src msg) (hcall : fsHeard s src msg = .ok s') :
    Inv s' := by
  have hne : ∀ src msg, s.fs ≠ .hearTty src msg := by
    intro src msg hh
    rw [hpc] at hh
    cases hh
  have hsrc : src ≠ TASK_TTY := h.client src (by rw [hpc]; rfl)
  have hreply : Inv { s with fs := .reply src } := by
    refine inv_fsLocal h hidle hne ?_ ?_
    · intro q hq
      cases hq
      exact hsrc
    · intro q msg hq
      cases hq
  have hback : Inv { s with fs := .receive } := by
    refine inv_fsLocal h hidle hne ?_ ?_
    · intro q hq
      cases hq
    · intro q msg hq
      cases hq
  unfold fsHeard at hcall
  split at hcall
  · obtain rfl := pure_eq_ok.mp hcall
    exact hreply
  · split at hcall
    · cases hcall
    · simp only [bind_eq_ok, assert_eq_ok, exists_const] at hcall
      obtain ⟨-, hcall⟩ := hcall
      split at hcall
      · obtain rfl := pure_eq_ok.mp hcall
        exact hback
      · obtain rfl := pure_eq_ok.mp hcall
        exact hreply

/-- FS waits for a message that is not an answer of TTY. -/
theorem inv_fsReceive (h : Inv s) (hrun : (s.table TASK_FS).procState = RUNNABLE)
    (hpc : ∀ src msg, s.fs ≠ .hearTty src msg) {pc : FsPc}
    (hclient : ∀ q, pc.client = some q → q ≠ TASK_TTY)
    (hother : ∀ q msg, pc ≠ .callTty q msg ∧ pc ≠ .heard q msg)
    (hcall : { s with fs := pc }.rcv x TASK_FS src = .ok s') : Inv s' := by
  have hidle := idle_of_runnable hrun
  have hinv : Inv { s with fs := pc } :=
    inv_fsLocal h hidle hpc hclient fun q msg hq => absurd hq (hother q msg).1
  have hserves := not_serves_of_fs h hidle hpc
  obtain ⟨hkept, hout, heff⟩ := rcv_spec hcall
  obtain ⟨htty, hfs, htt⟩ := hkept
  -- FS takes a message of the TTY driver, of another process, or waits
  have hloose : Looser (s'.table TASK_TTY) (s.table TASK_TTY) := by
    rcases heff with ⟨-, hstill, -⟩ | ⟨q, -, -, -, hidle', hstill, -⟩ |
      ⟨-, -, -, -, hstill, -⟩
    · exact Or.inl (hstill _)
    · by_cases hq : TASK_TTY = q
      · rw [hq]
        exact Or.inr hidle'
      · exact Or.inl (hstill _ hq)
    · exact Or.inl (hstill _ (by decide))
  have hsending : (s'.table TASK_FS).procState.sending = false := by
    rcases heff with ⟨-, hstill, -⟩ | ⟨q, -, hst, -, -, hstill, -⟩ |
      ⟨-, -, hsnd, -⟩
    · rw [(hstill _).sending]
      exact hidle.1
    · have hne : TASK_FS ≠ q := by
        rintro rfl
        change (s.table TASK_FS).procState = SENDING at hst
        rw [hrun] at hst
        cases hst
      rw [(hstill _ hne).sending]
      exact hidle.1
    · rw [hsnd]
      exact hidle.1
  have hinb : s'.inb TASK_TTY = s.inb TASK_TTY := by
    rcases heff with ⟨-, -, hi⟩ | ⟨q, -, -, -, -, -, hi⟩ | ⟨-, -, -, -, -, hi⟩ <;>
    rw [hi] <;> rfl
  have hnosnd : ¬ SendingTo s'.table TASK_FS TASK_TTY := by
    intro hs
    rw [hs.1] at hsending
    cases hsending
  constructor
  case out =>
    rw [hout]; exact h.out
  case inb =>
    rcases heff with ⟨-, -, hi⟩ | ⟨q, -, -, -, -, -, hi⟩ |
      ⟨-, -, -, -, -, hi⟩ <;> rw [hi]
    · refine fits_setInb h.inb fun q msg hv => ?_
      obtain ⟨rfl, rfl⟩ := Prod.mk.inj (Option.some.inj hv)
      trivial
    · refine fits_setInb h.inb fun y msg hv => ?_
      obtain ⟨rfl, rfl⟩ := Prod.mk.inj (Option.some.inj hv)
      exact h.out _
    · exact fits_setInb h.inb fun y msg hv => by cases hv
  case client =>
    rw [hfs]; exact hclient
  case driver =>
    rw [hfs]; exact hinv.driver
  case reader =>
    rw [htty, htt]; exact h.reader
  case answer =>
    rw [htty]; exact h.answer
  case ttyRcv =>
    rw [htty]
    intro hr
    rcases hloose with hst | hidle'
    · exact h.ttyRcv (hst.receiving ▸ hr)
    · rw [hidle'.2] at hr
      cases hr
  case ttySnd =>
    rw [htty]
    intro hs
    rcases hloose with hst | hidle'
    · exact h.ttySnd (hst.sending ▸ hs)
    · rw [hidle'.1] at hs
      cases hs
  case answered =>
    rw [htty]
    intro hs hdev
    obtain ⟨q, m, hhear⟩ := h.answered (sendingTo_of_looser hloose hs) hdev
    exact absurd hhear (hpc q m)
  case fsSnd =>
    exact fun hs => absurd hs hnosnd
  case fsFrom =>
    rw [hfs]
    rintro - ⟨q, msg, hq⟩
    exact absurd hq (hother q msg).2
  case serving =>
    intro hs
    refine absurd ?_ hserves
    rw [TtyServes, htty, hinb] at hs
    exact hs
  case quiet =>
    exact fun hs => absurd hs hnosnd

/-- FS waits for TTY's answer. -/
theorem inv_fsHear (h : Inv s) (hrun : (s.table TASK_FS).procState = RUNNABLE)
    (hpc : s.fs = .hearTty src msg)
    (hcall : { s with fs := .heard src msg }.rcv x TASK_FS TASK_TTY = .ok s') :
    Inv s' := by
  have hidle := idle_of_runnable hrun
  have hsrc : src ≠ TASK_TTY := h.client src (by rw [hpc]; rfl)
  obtain ⟨hkept, hout, heff⟩ := rcv_spec hcall
  obtain ⟨htty, hfs, htt⟩ := hkept
  change s'.fs = .heard src msg at hfs
  have hdriver : ∀ q m, s'.fs ≠ .callTty q m := by
    intro q m hq
    rw [hfs] at hq
    cases hq
  have hclient : ∀ q, s'.fs.client = some q → q ≠ TASK_TTY := by
    intro q hq
    rw [hfs] at hq
    cases hq
    exact hsrc
  have hnotSending : ∀ T : Table, (T TASK_FS).procState.sending =
      (s.table TASK_FS).procState.sending → ¬ SendingTo T TASK_FS TASK_TTY := by
    intro T hT hs
    rw [hs.1, hidle.1] at hT
    cases hT
  rcases heff with ⟨hsrc', -⟩ | ⟨q, hq, hst, hto, hidle', hstill, hinb⟩ |
    ⟨hrec, hfrom, hsnd, hnot, hstill, hinb⟩
  · rcases hsrc' with hs | hs <;> exact absurd hs (by decide)
  · -- TTY was SENDING, so it has nothing to answer
    obtain rfl : TASK_TTY = q := by
      rcases hq with hq | hq
      · exact absurd hq (by decide)
      · exact hq
    have hnosnd := hnotSending s'.table (hstill TASK_FS (by decide)).sending
    have hpctty : (∃ i, s.tty = .resumed i) ∨ s.tty = .devRead 0 :=
      h.ttySnd hto.1
    constructor
    case out =>
      rw [hout]
      exact h.out
    case inb =>
      rw [hinb]
      refine fits_setInb h.inb fun y m hv => ?_
      obtain ⟨rfl, rfl⟩ := Prod.mk.inj (Option.some.inj hv)
      exact h.out _
    case client => exact hclient
    case driver => exact fun q m hq => absurd hq (hdriver q m)
    case reader =>
      rw [htty, htt]
      exact h.reader
    case answer =>
      rw [htty]
      exact h.answer
    case ttyRcv =>
      intro hr
      rw [hidle'.2] at hr
      cases hr
    case ttySnd =>
      intro hs
      rw [hidle'.1] at hs
      cases hs
    case answered =>
      exact fun hs => absurd (hs.1.symm.trans hidle'.1) (by decide)
    case fsSnd => exact fun hs => absurd hs hnosnd
    case fsFrom =>
      intro hr
      rw [(hstill TASK_FS (by decide)).receiving] at hr
      exact absurd (hr.symm.trans hidle.2) (by decide)
    case serving =>
      intro hs
      refine absurd hs (not_serves (fun pid m hr => ?_) fun hr => ?_) <;>
        rw [htty] at hr <;> rcases hpctty with ⟨i, hp⟩ | hp <;>
        exact absurd (hr.symm.trans hp) (by simp)
    case quiet => exact fun hs => absurd hs hnosnd
  · have hnosnd := hnotSending s'.table hsnd
    have htt' := hstill TASK_TTY (by decide)
    constructor
    case out =>
      rw [hout]
      exact h.out
    case inb =>
      rw [hinb]
      exact fits_setInb h.inb fun y m hv => by cases hv
    case client => exact hclient
    case driver => exact fun q m hq => absurd hq (hdriver q m)
    case reader =>
      rw [htty, htt]
      exact h.reader
    case answer =>
      rw [htty]
      exact h.answer
    case ttyRcv =>
      rw [htty]
      exact fun hr => h.ttyRcv (htt'.receiving ▸ hr)
    case ttySnd =>
      rw [htty]
      exact fun hs => h.ttySnd (htt'.sending ▸ hs)
    case answered =>
      intro hs
      exact absurd (sendingTo_of_looser (Or.inl htt') hs) (hnot (by decide))
    case fsSnd => exact fun hs => absurd hs hnosnd
    case fsFrom => exact fun _ _ => hfrom
    case serving =>
      exact fun _ => ⟨hsnd.trans hidle.1, Or.inr ⟨⟨src, msg, hfs⟩, hrec⟩⟩
    case quiet => exact fun hs => absurd hs hnosnd

/-- A SEND of FS to somebody else than TTY. -/
theorem inv_fsSend (h : Inv s) (hrun : (s.table TASK_FS).procState = RUNNABLE)
    (hpc : ∀ q m, s.fs ≠ .hearTty q m) {pc : FsPc}
    (hclient : ∀ q, pc.client = some q → q ≠ TASK_TTY)
    (hother : ∀ q m, pc ≠ .callTty q m ∧ pc ≠ .heard q m)
    (hr : r ≠ TASK_TTY) (hfits : Fits TASK_FS msg)
    (hcall : { s with fs := pc }.send x TASK_FS r msg = .ok s') : Inv s' := by
  have hidle := idle_of_runnable hrun
  have hserves := not_serves_of_fs h hidle hpc
  obtain ⟨hkept, hout, heff⟩ := send_spec hcall hrun
  obtain ⟨htty, hfs, htt⟩ := hkept
  have hstill : Still (s'.table TASK_TTY) (s.table TASK_TTY) := by
    rcases heff with ⟨-, -, -, hstill, -⟩ | ⟨-, -, hstill, -⟩
    · exact hstill _ (by decide)
    · exact hstill _ hr.symm
  have hinb : s'.inb TASK_TTY = s.inb TASK_TTY := by
    rcases heff with ⟨-, -, -, -, hi⟩ | ⟨-, -, -, hi⟩ <;> rw [hi]
    exact setInb_of_ne _ _ hr.symm
  have hnosnd : ¬ SendingTo s'.table TASK_FS TASK_TTY := by
    intro hs
    rcases heff with ⟨-, hto, -⟩ | ⟨-, hidle', hst, -⟩
    · exact hr (hto.2.symm.trans hs.2)
    · by_cases hq : TASK_FS = r
      · rw [← hq] at hidle'
        exact absurd (hs.1.symm.trans hidle'.1) (by decide)
      · have hsending := (hst _ hq).sending.symm.trans hs.1
        exact absurd (hsending.symm.trans hidle.1) (by decide)
  constructor
  case out =>
    rw [hout]
    exact fits_setOut h.out hfits
  case inb =>
    rcases heff with ⟨-, -, -, -, hi⟩ | ⟨-, -, -, hi⟩ <;> rw [hi]
    · exact h.inb
    · refine fits_setInb h.inb fun q m hv => ?_
      obtain ⟨rfl, rfl⟩ := Prod.mk.inj (Option.some.inj hv)
      exact hfits
  case client =>
    rw [hfs]; exact hclient
  case driver =>
    rw [hfs]
    exact fun q m hq => absurd hq (hother q m).1
  case reader =>
    rw [htty, htt]; exact h.reader
  case answer =>
    rw [htty]; exact h.answer
  case ttyRcv =>
    rw [htty]
    exact fun hrec => h.ttyRcv (hstill.receiving ▸ hrec)
  case ttySnd =>
    rw [htty]
    exact fun hs => h.ttySnd (hstill.sending ▸ hs)
  case answered =>
    rw [htty]
    intro hs hdev
    obtain ⟨q, m, hhear⟩ :=
      h.answered (sendingTo_of_looser (Or.inl hstill) hs) hdev
    exact absurd hhear (hpc q m)
  case fsSnd =>
    exact fun hs => absurd hs hnosnd
  case fsFrom =>
    rw [hfs]
    rintro - ⟨q, m, hq⟩
    exact absurd hq (hother q m).2
  case serving =>
    intro hs
    refine absurd ?_ hserves
    rw [TtyServes, htty, hinb] at hs
    exact hs
  case quiet =>
    exact fun hs => absurd hs hnosnd

/-- **FS CALLS TTY**: it is heard at once, or no read is under way. -/
theorem inv_fsCallTty (h : Inv s)
    (hrun : (s.table TASK_FS).procState = RUNNABLE)
    (hpc : s.fs = .callTty src msg) (hclear : Clear s)
    (hcall : { s with fs := .hearTty src msg }.send x TASK_FS TASK_TTY msg =
      .ok s') : Inv s' := by
  have hidle := idle_of_runnable hrun
  have hserves : ¬ TtyServes s := by
    refine not_serves_of_fs h hidle fun q m hh => ?_
    rw [hpc] at hh
    cases hh
  have hsrc : src ≠ TASK_TTY := h.client src (by rw [hpc]; rfl)
  have hfits := h.driver src msg hpc
  obtain ⟨hkept, hout, heff⟩ := send_spec hcall hrun
  obtain ⟨htty, hfs, htt⟩ := hkept
  change s'.fs = .hearTty src msg at hfs
  have hinb' : ∀ r q m, s'.inb r = some (q, m) → Fits q m := by
    rcases heff with ⟨-, -, -, -, hi⟩ | ⟨-, -, -, hi⟩ <;> rw [hi]
    · exact h.inb
    · refine fits_setInb h.inb fun q m hv => ?_
      obtain ⟨rfl, rfl⟩ := Prod.mk.inj (Option.some.inj hv)
      exact hfits
  have hout' : ∀ q, Fits q (s'.out q) := by
    rw [hout]
    exact fits_setOut h.out hfits
  have hclient : ∀ q, s'.fs.client = some q → q ≠ TASK_TTY := by
    rw [hfs]
    intro q hq
    cases hq
    exact hsrc
  have hdriver : ∀ q m, s'.fs = .callTty q m → Fits TASK_FS m := by
    rw [hfs]
    intro q m hq
    cases hq
  have hheard : ¬ ∃ q m, s'.fs = .heard q m := by
    rintro ⟨q, m, hq⟩
    rw [hfs] at hq
    cases hq
  have hreader : ∀ i, (s'.ttyTable i).ttyLeftCnt ≠ 0 ∨ s'.tty = .resume i →
      (s'.ttyTable i).ttyProcnr ≠ TASK_TTY := by
    rw [htty, htt]
    exact h.reader
  have hanswer : ∀ pid m, s'.tty = .reply pid m → Fits TASK_TTY m := by
    rw [htty]
    exact h.answer
  -- TTY is not waiting, and FS blocks on it; or it takes the request at once
  rcases heff with ⟨hnot, hto, -, hstill, hinb⟩ | ⟨hwait, hidle', hstill, hinb⟩
  · have htt' := hstill TASK_TTY (by decide)
    refine ⟨hout', hinb', hclient, hdriver, hreader, hanswer, ?_, ?_,
      fun _ _ => ⟨src, msg, hfs⟩, fun _ => ⟨src, msg, hfs⟩, fun _ hh => absurd hh hheard, ?_, ?_⟩
    · rw [htty]
      exact fun hrec => h.ttyRcv (htt'.receiving ▸ hrec)
    · rw [htty]
      exact fun hs => h.ttySnd (htt'.sending ▸ hs)
    · intro hs
      refine absurd ?_ hserves
      rw [TtyServes, htty, hinb] at hs
      exact hs
    · intro _ i hread
      rcases hclear with hw | hno
      · exact hnot hw
      · refine hno i ?_
        rw [Reading, htty, htt] at hread
        rcases hread with hl | hr | ⟨hr, hts⟩
        · exact Or.inl hl
        · exact Or.inr (Or.inl hr)
        · exact Or.inr (Or.inr ⟨hr, htt'.sending ▸ hts⟩)
  · have hfs' := hstill TASK_FS (by decide)
    have hsending : (s'.table TASK_FS).procState.sending = false :=
      hfs'.sending.trans hidle.1
    have hnosnd : ¬ SendingTo s'.table TASK_FS TASK_TTY :=
      fun hs => absurd (hs.1.symm.trans hsending) (by decide)
    refine ⟨hout', hinb', hclient, hdriver, hreader, hanswer, ?_, ?_,
      fun _ _ => ⟨src, msg, hfs⟩, fun hs => absurd hs hnosnd, fun _ hh => absurd hh hheard, ?_,
      fun hs => absurd hs hnosnd⟩
    · exact fun hrec => absurd (hrec.symm.trans hidle'.2) (by decide)
    · exact fun hs => absurd (hs.symm.trans hidle'.1) (by decide)
    · exact fun _ => ⟨hsending, Or.inl ⟨src, msg, hfs⟩⟩

/-- **FS** keeps the invariant if it calls TTY when this is clear. -/
theorem inv_fsStep (h : Inv s) (hrun : (s.table TASK_FS).procState = RUNNABLE)
    {disk : Bool} (hclear : ∀ src msg, s.fs = .callTty src msg → Clear s)
    (hcall : fsStep x disk s = .ok s') : Inv s' := by
  have hidle := idle_of_runnable hrun
  have hclient := h.client
  cases hpc : s.fs with
  | receive =>
      simp only [fsStep, hpc] at hcall
      refine inv_fsReceive h hrun ?_ ?_ ?_ hcall
      · intro q m hh; rw [hpc] at hh; cases hh
      · intro q hq; cases hq
      · intro q m; simp
  | serve =>
      simp only [fsStep, hpc] at hcall
      exact inv_fsServe h hidle hpc hcall
  | work src dev =>
      have hne : ∀ q m, s.fs ≠ .hearTty q m := by
        intro q m hh; rw [hpc] at hh; cases hh
      have hsrc : src ≠ TASK_TTY := hclient src (by rw [hpc]; rfl)
      simp only [fsStep, hpc] at hcall
      split at hcall
      · obtain rfl := pure_eq_ok.mp hcall
        refine inv_fsLocal h hidle hne ?_ ?_
        · intro q hq; cases hq; exact hsrc
        · intro q m hq; cases hq
      · split at hcall
        · obtain rfl := pure_eq_ok.mp hcall
          refine inv_fsLocal h hidle hne ?_ ?_
          · intro q hq; cases hq; exact hsrc
          · intro q m hq; cases hq; rfl
        · obtain rfl := pure_eq_ok.mp hcall
          refine inv_fsLocal h hidle hne ?_ ?_
          · intro q hq; cases hq; exact hsrc
          · intro q m hq; cases hq
  | callHd src dev =>
      simp only [fsStep, hpc] at hcall
      refine inv_fsSend h hrun ?_ ?_ ?_ (by decide) ?_ hcall
      · intro q m hh; rw [hpc] at hh; cases hh
      · intro q hq; cases hq; exact hclient src (by rw [hpc]; rfl)
      · intro q m; simp
      · show TASK_FS ≠ TASK_TTY
        decide
  | hearHd src dev =>
      simp only [fsStep, hpc] at hcall
      refine inv_fsReceive h hrun ?_ ?_ ?_ hcall
      · intro q m hh; rw [hpc] at hh; cases hh
      · intro q hq; cases hq; exact hclient src (by rw [hpc]; rfl)
      · intro q m; simp
  | callTty src msg =>
      simp only [fsStep, hpc] at hcall
      exact inv_fsCallTty h hrun hpc (hclear src msg hpc) hcall
  | hearTty src msg =>
      simp only [fsStep, hpc] at hcall
      exact inv_fsHear h hrun hpc hcall
  | heard src msg =>
      simp only [fsStep, hpc] at hcall
      exact inv_fsHeard h hidle hpc hcall
  | reply src =>
      simp only [fsStep, hpc] at hcall
      have hfits : Fits TASK_FS (.syscallRet 0) := trivial
      refine inv_fsSend h hrun ?_ ?_ ?_ ?_ hfits hcall
      · intro q m hh; rw [hpc] at hh; cases hh
      · intro q hq; cases hq
      · intro q m; simp
      · exact hclient src (by rw [hpc]; rfl)

/-! ## Runs -/

/-- **STEP**: every step of a run that meets the condition. -/
theorem inv_step {e : Event} (h : Inv s) (hclear : CallsClear s e)
    (hstep : Step s e s') : Inv s' := by
  obtain ⟨henabled, hcall⟩ := hstep
  cases e with
  | send x q r msg =>
      obtain ⟨hfs, htty, -, -, hmsg, hrun⟩ := henabled
      exact inv_foreignSend h hfs htty hmsg hrun hcall
  | rcv x q src =>
      obtain ⟨hfs, htty, -⟩ := henabled
      exact inv_foreignRcv h hfs htty hcall
  | hwInt p =>
      simp only [exec, bind_eq_ok, pure_eq_ok] at hcall
      obtain ⟨⟨T', w⟩, hcall, rfl⟩ := hcall
      exact inv_hwInt h henabled hcall
  | tty x keys => exact inv_ttyStep h henabled hcall
  | fs x disk => exact inv_fsStep h henabled hclear hcall

/-- At boot nothing is under way. -/
theorem inv_boot (h : Boot s) : Inv s := by
  obtain ⟨kTop, outside, htab⟩ := h.table
  have hidle : ∀ q, InTable q → Idle (s.table q) := by
    intro q hq
    rw [htab]
    rcases (initProcess_idle kTop outside hq).1 with hst | hst <;>
      rw [Idle, hst] <;> exact ⟨rfl, rfl⟩
  have hfs := hidle TASK_FS (by decide)
  have htty := hidle TASK_TTY (by decide)
  have hnosnd : ¬ SendingTo s.table TASK_FS TASK_TTY :=
    fun hs => absurd (hs.1.symm.trans hfs.1) (by decide)
  constructor
  case out =>
    intro q; rw [h.out q]; trivial
  case inb =>
    intro r q msg hm; rw [h.inb r] at hm; cases hm
  case client =>
    intro q hq; rw [h.fs] at hq; cases hq
  case driver =>
    intro q msg hq; rw [h.fs] at hq; cases hq
  case reader =>
    intro i hi
    rcases hi with hi | hi
    · exact absurd (h.reads i) hi
    · rw [h.tty] at hi; cases hi
  case answer =>
    intro pid msg hr; rw [h.tty] at hr; cases hr
  case ttyRcv =>
    exact fun hr => absurd (hr.symm.trans htty.2) (by decide)
  case ttySnd =>
    exact fun hs => absurd (hs.symm.trans htty.1) (by decide)
  case answered =>
    exact fun hs => absurd (hs.1.symm.trans htty.1) (by decide)
  case fsSnd =>
    exact fun hs => absurd hs hnosnd
  case fsFrom =>
    exact fun hr => absurd (hr.symm.trans hfs.2) (by decide)
  case serving =>
    intro hs
    refine absurd hs (not_serves (fun pid msg hr => ?_) fun hr => ?_) <;>
      rw [h.tty] at hr <;> cases hr
  case quiet =>
    exact fun hs => absurd hs hnosnd

/-- The invariant in every state of a run under the condition. -/
theorem inv_reach (h : Reach Boot Step CallsClear s) : Inv s :=
  reach_invariant Inv (fun _ h => inv_boot h)
    (fun _ _ _ h hclear hstep => inv_step h hclear hstep) h

/-- **NO DEADLOCK**: in every run in which FS calls TTY only when TTY waits for
    a message or no read is under way, no SEND of one task finds the other
    SENDING to it. -/
theorem fs_tty_deadlock_free (h : Reach Boot Step CallsClear s) {e : Event}
    (hclear : CallsClear s e) : ¬ Deadlocks s e := by
  have hinv := inv_reach h
  cases e with
  | tty x keys =>
      rintro ⟨hsnd, ⟨i, hpc, -⟩ | ⟨msg, hpc⟩⟩
      · exact hinv.quiet hsnd i (Or.inr (Or.inl hpc))
      · have hwait := hinv.serving (Or.inl ⟨TASK_FS, msg, hpc⟩)
        exact absurd (hsnd.1.symm.trans hwait.1) (by decide)
  | fs x disk =>
      rintro ⟨hsnd, ⟨src, msg, hpc⟩ | hpc⟩
      · rcases hinv.ttySnd hsnd.1 with ⟨i, hres⟩ | hdev
        · rcases hclear src msg hpc with hwait | hno
          · have hserve := hinv.ttyRcv hwait.1
            rw [hres] at hserve
            cases hserve
          · exact hno i (Or.inr (Or.inr ⟨hres, hsnd.1⟩))
        · -- an answer of TTY waits for FS, which would be past its call
          obtain ⟨q, m, hhear⟩ := hinv.answered hsnd hdev
          rw [hpc] at hhear
          cases hhear
      · exact hinv.client TASK_TTY (by rw [hpc]; rfl) rfl
  | send x q r msg => exact id
  | rcv x q src => exact id
  | hwInt p => exact id

/-! ## A read and a write -/

/-- The pair is what `check_deadlock` finds first, and the kernel panics. -/
theorem send_panics {T : Table} (fuel : Nat) (m : Addr)
    (h : SendingTo T r p) (hmsg : (T r).pendingMsg ≠ 0) (hne : p ≠ r) :
    kernelMsgSend (fuel + 1) T p r m = .error .panic := by
  have hprint : printChain T p (fuel + 1) r = .ok () := by
    rw [printChain, assert, if_pos hmsg, if_pos h.2]
    rfl
  have hdeadlock : checkDeadlock (fuel + 1) T p r = .ok true := by
    rw [checkDeadlock, hprint, checkDeadlockLoop, if_pos h.1, if_pos h.2]
    rfl
  rw [kernelMsgSend, assert, if_pos hne, hdeadlock]
  rfl

/-- A schedule, with a test of every step. -/
def run (test : Sys → Event → Bool) : List Event → Sys → Except Halt Sys
  | [], s => .ok s
  | e :: es, s =>
      if Enabled s e ∧ test s e = true then exec s e >>= run test es
      else .error .assertionFailure

/-- A run that is computed is a run. -/
theorem reach_run {guard : Sys → Event → Prop} {test : Sys → Event → Bool}
    (htest : ∀ s e, test s e = true → guard s e) :
    ∀ {es : List Event} {s s' : Sys}, Reach Boot Step guard s →
      run test es s = .ok s' → Reach Boot Step guard s' := by
  intro es
  induction es with
  | nil =>
      intro s s' h hrun
      cases hrun
      exact h
  | cons e es ih =>
      intro s s' h hrun
      rw [run] at hrun
      split at hrun
      · rename_i hen
        obtain ⟨s₁, hstep, hrun⟩ := bind_eq_ok.mp hrun
        exact ih (.next h (htest s e hen.2) ⟨hen.1, hstep⟩) hrun
      · cases hrun

/-- The machine behind `init_process`. -/
def bootSys : Sys where
  table := initProcess 0xFFFFF fun _ => freeProc
  out := fun _ => .syscallRet 0
  inb := fun _ => none
  tty := .devRead 0
  fs := .receive
  ttyTable := fun _ => {}
  currentConsole := 1

theorem bootSys_boot : Boot bootSys :=
  ⟨⟨_, _, rfl⟩, fun _ => rfl, fun _ => rfl, rfl, rfl, fun _ => rfl⟩

/-- Whether a run ends in a state with a property. -/
def endsIn (test : Sys → Bool) : Except Halt Sys → Bool
  | .ok s => test s
  | .error _ => false

/-- What it ends in. -/
theorem exists_of_endsIn {test : Sys → Bool} {res : Except Halt Sys}
    (h : endsIn test res = true) : ∃ s, res = .ok s ∧ test s = true := by
  cases res with
  | ok s => exact ⟨s, rfl, h⟩
  | error _ => cases h

/-- Fuel and the address of the message in the runs below. -/
def at1 : Choice := ⟨3, 0x1000⟩

/-- TTY goes round its ttys and waits, FS waits; INIT reads from tty 1, which
    suspends it; then TTY takes the ENTER key on tty 1. -/
def readAndEnter : List Event :=
  let tty := Event.tty at1 []
  let fs := Event.fs at1 false
  [tty, tty, tty, tty, tty, tty, tty, fs,
    .send at1 INIT TASK_FS (.fsReadWrite false (some 1) 1), fs, fs, fs,
    tty, tty, fs, fs, tty, tty, .tty at1 [ENTER], tty]

/-- Process 6 writes to the same tty before TTY resumes the reader. -/
def writeMeanwhile : List Event :=
  let fs := Event.fs at1 false
  [.send at1 6 TASK_FS (.fsReadWrite true (some 1) 1), fs, fs]

/-- TTY waits for FS whenever FS calls it. -/
def waitsAtCall (s : Sys) : Event → Bool
  | .fs _ _ =>
      match s.fs with
      | .callTty _ _ => decide (IsWaitingFor s.table TASK_TTY TASK_FS)
      | _ => true
  | _ => true

theorem callsClear_of_waitsAtCall (s : Sys) (e : Event)
    (h : waitsAtCall s e = true) : CallsClear s e := by
  cases e with
  | fs x disk =>
      intro src msg hpc
      rw [waitsAtCall, hpc] at h
      exact Or.inl (of_decide_eq_true h)
  | _ => trivial

/-- TTY is about to resume INIT, and its SEND finds nobody SENDING to it. -/
theorem fs_tty_deadlock_free_read :
    ∃ s, s.tty = .resume 1 ∧ (s.ttyTable 1).ttyCaller = TASK_FS ∧
      ¬ Deadlocks s (.tty at1 []) := by
  have hends : endsIn (fun s => decide (s.tty = .resume 1 ∧
      (s.ttyTable 1).ttyCaller = TASK_FS))
      (run waitsAtCall readAndEnter bootSys) = true := by decide +kernel
  obtain ⟨s, hrun, htest⟩ := exists_of_endsIn hends
  have hreach := reach_run callsClear_of_waitsAtCall (.start bootSys_boot) hrun
  obtain ⟨hpc, hcaller⟩ := of_decide_eq_true htest
  exact ⟨s, hpc, hcaller,
    fs_tty_deadlock_free hreach (e := .tty at1 []) trivial⟩

/-- A write that comes while TTY handles the key which ends a read: FS is
    SENDING to TTY when TTY sends `RESUME_PROC`, and the kernel panics. -/
theorem tty_deadlock :
    ∃ s, Reach Boot Step free s ∧ Enabled s (.tty at1 []) ∧
      Deadlocks s (.tty at1 []) ∧ exec s (.tty at1 []) = .error .panic := by
  have hends : endsIn (fun s => decide (s.tty = .resume 1 ∧
      (s.ttyTable 1).ttyCaller = TASK_FS ∧
      (s.table TASK_FS).procState.sending = true ∧
      (s.table TASK_FS).pidSendingto = TASK_TTY ∧
      (s.table TASK_FS).pendingMsg ≠ 0 ∧ Enabled s (.tty at1 [])))
      (run (fun _ _ => true) (readAndEnter ++ writeMeanwhile) bootSys) =
      true := by
    decide +kernel
  obtain ⟨s, hrun, htest⟩ := exists_of_endsIn hends
  have hreach : Reach Boot Step free s :=
    reach_run (fun _ _ _ => trivial) (.start bootSys_boot) hrun
  obtain ⟨hpc, hcaller, hsnd, hto, hmsg, hen⟩ := of_decide_eq_true htest
  refine ⟨s, hreach, hen, ⟨⟨hsnd, hto⟩, Or.inl ⟨1, hpc, hcaller⟩⟩, ?_⟩
  have hpanic := send_panics (p := TASK_TTY) 2 0x1000 ⟨hsnd, hto⟩ hmsg
    (by decide)
  simp only [exec, ttyStep, hpc, Sys.send, hcaller, at1]
  rw [hpanic]
  rfl

end KosFsTty
