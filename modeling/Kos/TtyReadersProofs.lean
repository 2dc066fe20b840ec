import Mathlib.Algebra.BigOperators.Group.Finset.Basic
import Kos.FsTtyProofs

/-! # The readers of a tty

    A book over the machine of `task_tty` and `task_fs`: which reads TTY has
    answered with `SUSPEND_PROC` and FS has got no `RESUME_PROC` for, and how
    many `RESUME_PROC` each tty has sent for its last read.

    * A second read of one tty overwrites the record of the first, whose
      reader nobody resumes (`reader_forgotten`);
    * if every `DEV_READ` asks for something and finds its tty without a
      reader, every suspended reader is on record or its `RESUME_PROC` on the
      way (`no_reader_forgotten`). -/

namespace KosTtyReaders

open FlatMemory KosKernel KosFsTty GuardedRun
open KosIpc hiding Event Step

/-! ## The book -/

/-- The process that a `RESUME_PROC` names. -/
def readerOf : Body → Option Int
  | .resumeProc procNr _ => some procNr
  | _ => none

/-- What TTY still owes to the readers. -/
structure Book where
  /-- the reads of a process that TTY has answered with `SUSPEND_PROC`, less
      those FS has got a `RESUME_PROC` for -/
  owed : Int → Nat
  /-- the `RESUME_PROC` sent for the last `DEV_READ` of a tty -/
  resumes : Nat → Nat

/-- TTY answers a read of tty `i` with `SUSPEND_PROC`. -/
def Book.suspend (b : Book) (i : Nat) (p : Int) : Book where
  owed q := if q = p then b.owed q + 1 else b.owed q
  resumes j := if j = i then 0 else b.resumes j

/-- TTY sends `RESUME_PROC` for tty `i`. -/
def Book.resume (b : Book) (i : Nat) : Book :=
  { b with resumes := fun j =>
      if j = i then b.resumes j + 1 else b.resumes j }

/-- FS gets a `RESUME_PROC` that names `p`. -/
def Book.answer (b : Book) (p : Int) : Book :=
  { b with owed := fun q => if q = p then b.owed q - 1 else b.owed q }

/-- What a step of TTY or FS writes into the book. -/
def note (s : Sys) (b : Book) : Event → Book
  | .tty _ _ =>
      match s.tty, s.inb TASK_TTY with
      | .serve, some (_, .devRead minor procNr _) => b.suspend minor procNr
      | .resume i, _ => b.resume i
      | _, _ => b
  | .fs _ _ =>
      match s.fs, s.inb TASK_FS with
      | .serve, some (_, .resumeProc procNr _) => b.answer procNr
      | _, _ => b
  | _ => b

/-- The machine with its book. -/
abbrev Booked := Sys × Book

/-- At boot nothing is owed. -/
def BootBooked (a : Booked) : Prop :=
  Boot a.1 ∧ (∀ p, a.2.owed p = 0) ∧ ∀ i, a.2.resumes i = 0

/-- A step of the system, with what it notes. -/
def StepBooked (a : Booked) (e : Event) (a' : Booked) : Prop :=
  Step a.1 e a'.1 ∧ a'.2 = note a.1 a.2 e

/-! ## The property -/

/-- A tty has `p` on record as its reader. -/
def OnRecord (s : Sys) (p : Int) : Prop :=
  ∃ i, i < NR_CONSOLES ∧ (s.ttyTable i).ttyProcnr = p ∧
    0 < (s.ttyTable i).ttyLeftCnt

/-- TTY is at the SEND of a `RESUME_PROC` that names `p`, or SENDING it, or FS
    has it before it. -/
def OnItsWay (s : Sys) (p : Int) : Prop :=
  (∃ i, s.tty = .resume i ∧ (s.ttyTable i).ttyProcnr = p ∧
    (s.ttyTable i).ttyCaller = TASK_FS) ∨
  (SendingTo s.table TASK_TTY TASK_FS ∧
    readerOf (s.out TASK_TTY) = some p) ∨
  (s.fs = .serve ∧ ∃ q msg, s.inb TASK_FS = some (q, msg) ∧
    readerOf msg = some p)

/-- No suspended reader is forgotten. -/
def Remembered (a : Booked) : Prop :=
  ∀ p, 0 < a.2.owed p → OnRecord a.1 p ∨ OnItsWay a.1 p

/-- No read is resumed twice: a tty sends one `RESUME_PROC` for a `DEV_READ`,
    and each that FS has before it is for a read it owes an answer. -/
structure ResumedOnce (a : Booked) : Prop where
  sent : ∀ i, a.2.resumes i ≤ 1
  owed : ∀ q msg p, a.1.fs = .serve → a.1.inb TASK_FS = some (q, msg) →
    readerOf msg = some p → 0 < a.2.owed p

/-- The lengths of the requests are not negative. -/
def CntNonneg (_ : Booked) : Event → Prop
  | .send _ _ _ msg => 0 ≤ msg.cnt
  | _ => True

/-- The condition on a run: a `DEV_READ` asks for something, of a tty that has
    no reader. -/
def ReadsAlone (a : Booked) : Event → Prop
  | .tty _ _ => ∀ q minor procNr cnt, a.1.tty = .serve →
      a.1.inb TASK_TTY = some (q, .devRead minor procNr cnt) →
      0 < cnt ∧ (a.1.ttyTable minor).ttyLeftCnt = 0
  | _ => True

/-! ## The talk of the two tasks -/

/-- Who sends what; only TTY resumes, and a read is of one of the ttys. -/
def Says (q : Int) (msg : Body) : Prop :=
  Fits q msg ∧ (readerOf msg ≠ none → q = TASK_TTY) ∧
    match msg with
    | .fsReadWrite _ dev _ => dev.all (fun i => i < NR_CONSOLES) = true
    | .devRead minor _ _ => minor < NR_CONSOLES
    | _ => True

/-- TTY has a message of FS to answer, or waits for FS to take the answer. -/
def Answering (s : Sys) : Prop :=
  (s.tty = .serve ∧ ∃ q msg, s.inb TASK_TTY = some (q, msg) ∧
    msg.isDev = true) ∨
  (∃ pid msg, s.tty = .reply pid msg) ∨
  (s.tty = .devRead 0 ∧ SendingTo s.table TASK_TTY TASK_FS)

/-- A tty has a reader whom nobody has resumed. -/
def Held (s : Sys) (i : Nat) : Prop :=
  s.tty = .resume i ∨ (0 < (s.ttyTable i).ttyLeftCnt ∧ s.tty ≠ .resumed i)

/-- The messages between FS and TTY are those the two expect. -/
structure Talk (s : Sys) : Prop where
  out : ∀ q, Says q (s.out q)
  inb : ∀ r q msg, s.inb r = some (q, msg) → Says q msg
  client : ∀ src, s.fs.client = some src → src ≠ TASK_TTY
  driver : ∀ src msg, s.fs = .callTty src msg →
    Says TASK_FS msg ∧ msg.isDev = true
  left : ∀ i, 0 ≤ (s.ttyTable i).ttyLeftCnt
  held : ∀ i, Held s i → i < NR_CONSOLES ∧
    (s.ttyTable i).ttyCaller = TASK_FS ∧
    (s.ttyTable i).ttyProcnr ≠ TASK_TTY
  answer : ∀ pid msg, s.tty = .reply pid msg → pid = TASK_FS ∧
    Says TASK_TTY msg ∧ readerOf msg = none
  ttyRcv : (s.table TASK_TTY).procState.receiving = true →
    s.tty = .serve ∧ s.inb TASK_TTY = none
  ttySnd : (s.table TASK_TTY).procState.sending = true →
    (s.table TASK_TTY).pidSendingto = TASK_FS ∧
      ((∃ i, s.tty = .resumed i) ∨
        (s.tty = .devRead 0 ∧ readerOf (s.out TASK_TTY) = none))
  fsRcv : (s.table TASK_FS).procState.receiving = true →
    (s.table TASK_FS).procState.sending = false ∧ s.inb TASK_FS = none ∧
      (s.fs = .serve ∨ (∃ src msg, s.fs = .heard src msg) ∧
          (s.table TASK_FS).pidRecvingfrom = TASK_TTY ∨
        (s.table TASK_FS).pidRecvingfrom = TASK_HD)
  hear : ∀ src msg, s.fs = .hearTty src msg →
    (s.table TASK_FS).procState.sending = true →
    (s.table TASK_FS).pidSendingto = TASK_TTY
  call : SendingTo s.table TASK_FS TASK_TTY →
    (∃ src msg, s.fs = .hearTty src msg) ∧ (s.out TASK_FS).isDev = true
  waits : FsWaits s → Answering s
  apart : ¬ (SendingTo s.table TASK_FS TASK_TTY ∧
    SendingTo s.table TASK_TTY TASK_FS)

/-- A SEND that goes through does not find its receiver SENDING to it. -/
theorem not_sendingTo_of_send {fuel : Nat} {T T' : Table} {p r : Int}
    {m : Addr} {w : List Write} (h : kernelMsgSend fuel T p r m = .ok (T', w)) :
    ¬ SendingTo T r p := by
  rintro ⟨hsnd, hto⟩
  obtain ⟨-, hdl, -⟩ := kernelMsgSend_cases h
  cases fuel with
  | zero => cases hdl
  | succ n =>
      rw [checkDeadlock, checkDeadlockLoop, if_pos hsnd, if_pos hto] at hdl
      obtain ⟨-, -, htrue⟩ := bind_eq_ok.mp hdl
      cases htrue

/-! ## Steps beside the two tasks -/

/-- A step of another process, as the two tasks see it: it wakes them, if they
    wait for it or are SENDING to it. -/
structure Aside (s s' : Sys) : Prop where
  kept : Kept s s'
  tty : (Still (s'.table TASK_TTY) (s.table TASK_TTY) ∧
      s'.inb TASK_TTY = s.inb TASK_TTY) ∨
    ((s.table TASK_TTY).procState.receiving = true ∧
      Idle (s'.table TASK_TTY) ∧
      ∃ q msg, s'.inb TASK_TTY = some (q, msg) ∧ msg.isDev = false)
  fs : (Still (s'.table TASK_FS) (s.table TASK_FS) ∧
      s'.inb TASK_FS = s.inb TASK_FS) ∨
    Idle (s'.table TASK_FS) ∧
      (((s.table TASK_FS).procState.receiving = true ∧
          (s.table TASK_FS).pidRecvingfrom ≠ TASK_TTY ∧
          ∃ q msg, s'.inb TASK_FS = some (q, msg) ∧ readerOf msg = none) ∨
        (s'.inb TASK_FS = s.inb TASK_FS ∧
          (s.table TASK_FS).procState = SENDING ∧
          (s.table TASK_FS).pidSendingto ≠ TASK_TTY))
  out : s'.out TASK_TTY = s.out TASK_TTY ∧ s'.out TASK_FS = s.out TASK_FS

variable {x : Choice} {s s' : Sys} {p r src : Int} {msg : Body}

/-- TTY is SENDING to FS after the step if it was before it. -/
theorem ttySending_aside (h : Talk s) (ha : Aside s s') :
    SendingTo s'.table TASK_TTY TASK_FS ↔
      SendingTo s.table TASK_TTY TASK_FS := by
  rcases ha.tty with ⟨hst, -⟩ | ⟨hrec, hidle, -⟩
  · rw [SendingTo, SendingTo, hst.sending, hst.target]
  · constructor
    · intro hs
      exact absurd (hs.1.symm.trans hidle.1) (by decide)
    · intro hs
      have hserve := (h.ttyRcv hrec).1
      rcases (h.ttySnd hs.1).2 with ⟨i, hpc⟩ | ⟨hpc, -⟩ <;>
        rw [hserve] at hpc <;> cases hpc

/-- A SEND of FS was one before. -/
theorem fsSending_aside (ha : Aside s s')
    (hs : SendingTo s'.table TASK_FS r) : SendingTo s.table TASK_FS r := by
  rcases ha.fs with ⟨hst, -⟩ | ⟨hidle, -⟩
  · exact ⟨hst.sending ▸ hs.1, hst.target ▸ hs.2⟩
  · exact absurd (hs.1.symm.trans hidle.1) (by decide)

/-- **ANOTHER PROCESS** makes a step: the two tasks stay where they are. -/
theorem talk_aside (h : Talk s) (ha : Aside s s')
    (hout : ∀ q, Says q (s'.out q))
    (hinb : ∀ r q msg, s'.inb r = some (q, msg) → Says q msg) : Talk s' := by
  obtain ⟨hpc, hfs, htt⟩ := ha.kept
  constructor
  case out => exact hout
  case inb => exact hinb
  case client =>
    rw [hfs]
    exact h.client
  case driver =>
    rw [hfs]
    exact h.driver
  case left =>
    rw [htt]
    exact h.left
  case held =>
    intro i hi
    rw [Held, hpc, htt] at hi
    rw [htt]
    exact h.held i hi
  case answer =>
    rw [hpc]
    exact h.answer
  case ttyRcv =>
    intro hr
    rcases ha.tty with ⟨hst, heq⟩ | ⟨-, hidle, -⟩
    · rw [hpc, heq]
      exact h.ttyRcv (hst.receiving ▸ hr)
    · exact absurd (hr.symm.trans hidle.2) (by decide)
  case ttySnd =>
    intro hs
    rcases ha.tty with ⟨hst, -⟩ | ⟨-, hidle, -⟩
    · rw [hpc, ha.out.1, hst.target]
      exact h.ttySnd (hst.sending ▸ hs)
    · exact absurd (hs.symm.trans hidle.1) (by decide)
  case fsRcv =>
    intro hr
    rcases ha.fs with ⟨hst, heq⟩ | ⟨hidle, -⟩
    · rw [hfs, heq, hst.sending, hst.source]
      exact h.fsRcv (hst.receiving ▸ hr)
    · exact absurd (hr.symm.trans hidle.2) (by decide)
  case hear =>
    intro q m hhear hs
    rw [hfs] at hhear
    rcases ha.fs with ⟨hst, -⟩ | ⟨hidle, -⟩
    · rw [hst.target]
      exact h.hear q m hhear (hst.sending ▸ hs)
    · exact absurd (hs.symm.trans hidle.1) (by decide)
  case call =>
    intro hs
    rw [hfs, ha.out.2]
    exact h.call (fsSending_aside ha hs)
  case waits =>
    -- FS waits for TTY only if it did so before
    rintro ⟨hs, hwait⟩
    rw [hfs] at hwait
    have hold : FsWaits s := by
      rcases ha.fs with ⟨hst, -⟩ | ⟨hidle, ⟨hrec, hfrom, -⟩ | ⟨-, hst, hto⟩⟩
      · exact ⟨hst.sending ▸ hs, hst.receiving ▸ hwait⟩
      · rcases hwait with hhear | ⟨hheard, hrec'⟩
        · exact ⟨(h.fsRcv hrec).1, Or.inl hhear⟩
        · exact absurd (hrec'.symm.trans hidle.2) (by decide)
      · rcases hwait with ⟨q, m, hhear⟩ | ⟨hheard, hrec'⟩
        · exact absurd (h.hear q m hhear (by rw [hst]; rfl)) hto
        · exact absurd (hrec'.symm.trans hidle.2) (by decide)
    rcases h.waits hold with ⟨hserve, q, m, hm, hdev⟩ | hrep | ⟨hdr, hsnd⟩
    · rcases ha.tty with ⟨-, heq⟩ | ⟨hrec, -⟩
      · exact Or.inl ⟨hpc.trans hserve, q, m, heq.trans hm, hdev⟩
      · rw [(h.ttyRcv hrec).2] at hm
        cases hm
    · rw [Answering, hpc]
      exact Or.inr (Or.inl hrep)
    · exact Or.inr (Or.inr ⟨hpc.trans hdr, (ttySending_aside h ha).mpr hsnd⟩)
  case apart =>
    rintro ⟨hfsnd, htsnd⟩
    exact h.apart ⟨fsSending_aside ha hfsnd, (ttySending_aside h ha).mp htsnd⟩

/-- A request of a process says nothing of a reader. -/
theorem says_request (hmsg : msg.isRequest = true) (hp : p ≠ TASK_TTY) :
    Says p msg ∧ msg.isDev = false ∧ readerOf msg = none := by
  obtain ⟨hfits, hdev⟩ := fits_request hmsg hp
  cases msg with
  | fsReadWrite write dev cnt => exact ⟨⟨hfits, by simp [readerOf], hmsg⟩, hdev, rfl⟩
  | fsOpen dev => exact ⟨⟨hfits, by simp [readerOf], trivial⟩, hdev, rfl⟩
  | other => exact ⟨⟨hfits, by simp [readerOf], trivial⟩, hdev, rfl⟩
  | _ => cases hmsg

/-- What is sent is what may be said. -/
theorem says_setOut (h : ∀ q, Says q (s.out q)) (hmsg : Says p msg) (q : Int) :
    Says q ((s.setOut p msg).out q) := by
  show Says q (if q = p then msg else s.out q)
  by_cases hq : q = p
  · rw [if_pos hq, hq]
    exact hmsg
  · rw [if_neg hq]
    exact h q

/-- And so is what is received. -/
theorem says_setInb (h : ∀ r q msg, s.inb r = some (q, msg) → Says q msg)
    {v : Option (Int × Body)} (hv : ∀ q msg, v = some (q, msg) → Says q msg)
    (y q : Int) (msg : Body) (hmsg : (s.setInb p v).inb y = some (q, msg)) :
    Says q msg := by
  by_cases hy : y = p
  · rw [hy, setInb_self] at hmsg
    exact hv q msg hmsg
  · rw [setInb_of_ne s v hy] at hmsg
    exact h y q msg hmsg

theorem says_hwInt (q : Int) : Says q .hwInt :=
  ⟨trivial, fun h => absurd rfl h, trivial⟩

/-- What was sent last is what is sent. -/
theorem setOut_self (s : Sys) (p : Int) (msg : Body) :
    (s.setOut p msg).out p = msg := if_pos rfl

/-- Another process sends what it did. -/
theorem setOut_of_ne (s : Sys) {q : Int} (msg : Body) (h : q ≠ p) :
    (s.setOut p msg).out q = s.out q := if_neg h

/-- **ANOTHER PROCESS SENDS**. -/
theorem aside_send (h : Talk s) (hfs : p ≠ TASK_FS) (htty : p ≠ TASK_TTY)
    (hmsg : msg.isRequest = true) (hrun : (s.table p).procState = RUNNABLE)
    (hcall : s.send x p r msg = .ok s') : Aside s s' ∧ Talk s' := by
  obtain ⟨hkept, hout, heff⟩ := send_spec hcall hrun
  obtain ⟨hword, hdev, hreader⟩ := says_request hmsg htty
  have hout' : s'.out TASK_TTY = s.out TASK_TTY ∧
      s'.out TASK_FS = s.out TASK_FS := by
    rw [hout]
    exact ⟨setOut_of_ne s msg htty.symm, setOut_of_ne s msg hfs.symm⟩
  have haside : Aside s s' := by
    rcases heff with ⟨-, -, -, hstill, hinb⟩ | ⟨hwait, hidle, hstill, hinb⟩
    · refine ⟨hkept, Or.inl ⟨hstill _ htty.symm, ?_⟩,
        Or.inl ⟨hstill _ hfs.symm, ?_⟩, hout'⟩ <;> rw [hinb]
    · refine ⟨hkept, ?_, ?_, hout'⟩
      · by_cases hr : TASK_TTY = r
        · subst hr
          exact Or.inr ⟨hwait.1, hidle, p, msg, by rw [hinb, setInb_self], hdev⟩
        · exact Or.inl ⟨hstill _ hr, by rw [hinb, setInb_of_ne s _ hr]⟩
      · by_cases hr : TASK_FS = r
        · subst hr
          refine Or.inr ⟨hidle, Or.inl ⟨hwait.1, fun hfrom => ?_, p, msg,
            by rw [hinb, setInb_self], hreader⟩⟩
          rcases hwait.2 with hsrc | hany
          · exact htty (hsrc.symm.trans hfrom)
          · exact absurd (hfrom.symm.trans hany) (by decide)
        · exact Or.inl ⟨hstill _ hr, by rw [hinb, setInb_of_ne s _ hr]⟩
  refine ⟨haside, talk_aside h haside ?_ ?_⟩
  · rw [hout]
    exact says_setOut h.out hword
  · rcases heff with ⟨-, -, -, -, hinb⟩ | ⟨-, -, -, hinb⟩ <;> rw [hinb]
    · exact h.inb
    · refine says_setInb h.inb fun q msg' hv => ?_
      obtain ⟨rfl, rfl⟩ := Prod.mk.inj (Option.some.inj hv)
      exact hword

/-- What a RECEIVE brings. -/
theorem says_rcv (h : Talk s) (hcall : s.rcv x p src = .ok s') :
    (∀ q, Says q (s'.out q)) ∧
      ∀ r q msg, s'.inb r = some (q, msg) → Says q msg := by
  obtain ⟨-, hout, heff⟩ := rcv_spec hcall
  refine ⟨by rw [hout]; exact h.out, ?_⟩
  rcases heff with ⟨-, -, hinb⟩ | ⟨q, -, -, -, -, -, hinb⟩ |
    ⟨-, -, -, -, -, hinb⟩ <;> rw [hinb]
  · refine says_setInb h.inb fun y msg hv => ?_
    obtain ⟨rfl, rfl⟩ := Prod.mk.inj (Option.some.inj hv)
    exact says_hwInt _
  · refine says_setInb h.inb fun y msg hv => ?_
    obtain ⟨rfl, rfl⟩ := Prod.mk.inj (Option.some.inj hv)
    exact h.out _
  · exact says_setInb h.inb fun y msg hv => by cases hv

/-- **ANOTHER PROCESS RECEIVES**. -/
theorem aside_rcv (h : Talk s) (hfs : p ≠ TASK_FS) (htty : p ≠ TASK_TTY)
    (hcall : s.rcv x p src = .ok s') : Aside s s' ∧ Talk s' := by
  obtain ⟨hkept, hout, heff⟩ := rcv_spec hcall
  obtain ⟨hsout, hsinb⟩ := says_rcv h hcall
  have hout' : s'.out TASK_TTY = s.out TASK_TTY ∧
      s'.out TASK_FS = s.out TASK_FS := by rw [hout]; exact ⟨rfl, rfl⟩
  have hinb' : ∀ y, y ≠ p → s'.inb y = s.inb y := by
    intro y hy
    rcases heff with ⟨-, -, hinb⟩ | ⟨q, -, -, -, -, -, hinb⟩ |
      ⟨-, -, -, -, -, hinb⟩ <;> rw [hinb, setInb_of_ne s _ hy]
  have haside : Aside s s' := by
    rcases heff with ⟨-, hstill, -⟩ | ⟨q, -, hst, hto, hidle, hstill, -⟩ |
      ⟨-, -, -, -, hstill, -⟩
    · exact ⟨hkept, Or.inl ⟨hstill _, hinb' _ htty.symm⟩,
        Or.inl ⟨hstill _, hinb' _ hfs.symm⟩, hout'⟩
    · refine ⟨hkept, Or.inl ⟨hstill _ ?_, hinb' _ htty.symm⟩, ?_, hout'⟩
      · -- TTY sends to nobody but FS
        rintro rfl
        exact hfs (hto.2.symm.trans (h.ttySnd hto.1).1)
      · by_cases hq : TASK_FS = q
        · subst hq
          exact Or.inr ⟨hidle, Or.inr ⟨hinb' _ hfs.symm, hst,
            fun heq => htty (hto.2.symm.trans heq)⟩⟩
        · exact Or.inl ⟨hstill _ hq, hinb' _ hfs.symm⟩
    · exact ⟨hkept, Or.inl ⟨hstill _ htty.symm, hinb' _ htty.symm⟩,
        Or.inl ⟨hstill _ hfs.symm, hinb' _ hfs.symm⟩, hout'⟩
  exact ⟨haside, talk_aside h haside hsout hsinb⟩

/-- **AN INTERRUPT** comes. -/
theorem aside_hwInt (h : Talk s) {T' : Table} {w : List Write}
    (hp : p = TASK_TTY ∨ p = TASK_HD)
    (hcall : hwIntNotification s.table p = .ok (T', w)) :
    Aside s ({ s with table := T' }.settle w) ∧
      Talk ({ s with table := T' }.settle w) := by
  have hfs : TASK_FS ≠ p := by
    rcases hp with rfl | rfl <;> decide
  obtain ⟨hkept, htab, hout⟩ := kept_settle { s with table := T' } w
  have hkept' : Kept s ({ s with table := T' }.settle w) :=
    ⟨hkept.tty, hkept.fs, hkept.ttyTable⟩
  have hout' : (Sys.settle { s with table := T' } w).out = s.out := hout
  have haside : Aside s ({ s with table := T' }.settle w) := by
    rcases hwInt_effect hcall with
      ⟨⟨dst, rfl⟩, hwait, hidle, hstill⟩ | ⟨rfl, hstill⟩
    · refine ⟨hkept', ?_, Or.inl ⟨?_, setInb_of_ne _ _ hfs⟩, ?_⟩
      · rw [htab]
        by_cases hq : TASK_TTY = p
        · subst hq
          exact Or.inr ⟨hwait.1, hidle, INTERRUPT, .hwInt,
            setInb_self _ _ _, rfl⟩
        · exact Or.inl ⟨hstill _ hq, setInb_of_ne _ _ hq⟩
      · rw [htab]
        exact hstill _ hfs
      · rw [hout']
        exact ⟨rfl, rfl⟩
    · exact ⟨hkept', Or.inl ⟨hstill _, rfl⟩, Or.inl ⟨hstill _, rfl⟩, rfl, rfl⟩
  refine ⟨haside, talk_aside h haside ?_ ?_⟩
  · rw [hout']
    exact h.out
  · rcases hwInt_effect hcall with ⟨⟨dst, rfl⟩, -⟩ | ⟨rfl, -⟩
    · refine says_setInb h.inb fun q msg hv => ?_
      obtain ⟨rfl, rfl⟩ := Prod.mk.inj (Option.some.inj hv)
      exact says_hwInt _
    · exact h.inb

/-! ## TTY between its calls -/

/-- TTY runs and answers nobody, so FS does not wait for it. -/
theorem not_waits (h : Talk s) (hidle : Idle (s.table TASK_TTY))
    (hserve : s.tty ≠ .serve) (hreply : ∀ pid msg, s.tty ≠ .reply pid msg) :
    ¬ FsWaits s := by
  intro hw
  rcases h.waits hw with ⟨hs, -⟩ | ⟨pid, m, hr⟩ | ⟨-, hs, -⟩
  · exact hserve hs
  · exact hreply pid m hr
  · exact absurd (hs.symm.trans hidle.1) (by decide)

/-- What a step of TTY between two calls leaves alone. -/
structure TtyLocal (s s' : Sys) : Prop where
  table : s'.table = s.table
  out : s'.out = s.out
  inb : s'.inb = s.inb
  fs : s'.fs = s.fs

/-- A step of TTY on its own keeps the talk. -/
theorem talk_ttyLocal (h : Talk s) (hidle : Idle (s.table TASK_TTY))
    (hloc : TtyLocal s s') (hleft : ∀ i, 0 ≤ (s'.ttyTable i).ttyLeftCnt)
    (hheld : ∀ i, Held s' i → i < NR_CONSOLES ∧
      (s'.ttyTable i).ttyCaller = TASK_FS ∧
      (s'.ttyTable i).ttyProcnr ≠ TASK_TTY)
    (hanswer : ∀ pid msg, s'.tty = .reply pid msg → pid = TASK_FS ∧
      Says TASK_TTY msg ∧ readerOf msg = none)
    (hwaits : FsWaits s → Answering s') : Talk s' := by
  obtain ⟨htable, hout, hinb, hfs⟩ := hloc
  constructor
  case out =>
    rw [hout]
    exact h.out
  case inb =>
    rw [hinb]
    exact h.inb
  case client =>
    rw [hfs]
    exact h.client
  case driver =>
    rw [hfs]
    exact h.driver
  case left => exact hleft
  case held => exact hheld
  case answer => exact hanswer
  case ttyRcv =>
    intro hr
    rw [htable] at hr
    exact absurd (hr.symm.trans hidle.2) (by decide)
  case ttySnd =>
    intro hs
    rw [htable] at hs
    exact absurd (hs.symm.trans hidle.1) (by decide)
  case fsRcv =>
    rw [htable, hinb, hfs]
    exact h.fsRcv
  case hear =>
    rw [htable, hfs]
    exact h.hear
  case call =>
    rw [htable, hfs, hout]
    exact h.call
  case waits =>
    rw [FsWaits, htable, hfs]
    exact hwaits
  case apart =>
    rw [htable]
    exact h.apart

/-- A step that leaves the readers as they are. -/
theorem talk_ttyReads (h : Talk s) (hidle : Idle (s.table TASK_TTY))
    (hloc : TtyLocal s s')
    (hreads : ∀ i, (s'.ttyTable i).ttyProcnr = (s.ttyTable i).ttyProcnr ∧
      (s'.ttyTable i).ttyCaller = (s.ttyTable i).ttyCaller ∧
      0 ≤ (s'.ttyTable i).ttyLeftCnt ∧ (Held s' i → Held s i))
    (hpc : s.tty ≠ .serve ∧ ∀ pid msg, s.tty ≠ .reply pid msg)
    (hpc' : ∀ pid msg, s'.tty ≠ .reply pid msg) : Talk s' := by
  refine talk_ttyLocal h hidle hloc (fun i => (hreads i).2.2.1) ?_ ?_ ?_
  · intro i hi
    obtain ⟨hprocnr, hcaller, -, hheld⟩ := hreads i
    rw [hprocnr, hcaller]
    exact h.held i (hheld hi)
  · exact fun pid m hr => absurd hr (hpc' pid m)
  · exact fun hw => absurd hw (not_waits h hidle hpc.1 hpc.2)

/-- Keys change no reader. -/
theorem caller_ttyDevRead (s : Sys) (i j : Nat) (keys : List (BitVec 32)) :
    ((ttyDevRead s i keys).ttyTable j).ttyCaller =
      (s.ttyTable j).ttyCaller := by
  rw [ttyDevRead]
  split
  · rename_i hcons
    clear hcons
    induction keys generalizing s with
    | nil => rfl
    | cons key keys ih =>
        refine (ih (ttyProcessKey i s key)).trans ?_
        have henq : ∀ k, ((s.setTty i
            (ttyKeyEnqueue (s.ttyTable i) k)).ttyTable j).ttyCaller =
            (s.ttyTable j).ttyCaller := by
          intro k
          simp only [Sys.setTty, ttyKeyEnqueue]
          by_cases hj : j = i
          · subst hj
            rw [if_pos rfl]
            split <;> rfl
          · rw [if_neg hj]
        rw [ttyProcessKey]
        split
        · exact henq key
        · dsimp only
          split
          · exact henq _
          · split
            · exact henq _
            · split
              · rw [switchConsole]
                split <;> rfl
              · rfl
  · rfl

/-- A character takes at most what is left. -/
theorem takeChar_left {t : Tty} (ch : BitVec 8) (h : 0 < t.ttyLeftCnt) :
    0 ≤ (takeChar t ch).ttyLeftCnt ∧
      (takeChar t ch).ttyProcnr = t.ttyProcnr ∧
      (takeChar t ch).ttyCaller = t.ttyCaller := by
  rw [takeChar]
  split
  · exact ⟨by show 0 ≤ t.ttyLeftCnt - 1; omega, rfl, rfl⟩
  · split
    · exact ⟨by show 0 ≤ t.ttyLeftCnt + 1; omega, rfl, rfl⟩
    · exact ⟨h.le, rfl, rfl⟩

/-- A round of `tty_dev_write` keeps every reader, or goes on to resume it. -/
theorem ttyDevWrite_reads {i : Nat} (hpc : s.tty = .devWrite i)
    (hleft : ∀ j, 0 ≤ (s.ttyTable j).ttyLeftCnt) (j : Nat) :
    ((ttyDevWrite s i).ttyTable j).ttyProcnr = (s.ttyTable j).ttyProcnr ∧
    ((ttyDevWrite s i).ttyTable j).ttyCaller = (s.ttyTable j).ttyCaller ∧
    0 ≤ ((ttyDevWrite s i).ttyTable j).ttyLeftCnt ∧
    (Held (ttyDevWrite s i) j ↔ Held s j) := by
  have hold : Held s j ↔ 0 < (s.ttyTable j).ttyLeftCnt := by
    simp [Held, hpc]
  rw [hold, ttyDevWrite]
  split
  · refine ⟨rfl, rfl, hleft j, ?_⟩
    simp [Held, (nextTty_ne i).1 j]
  · rename_i key keys hkeys
    dsimp only
    split
    · rename_i hne
      have hpos : 0 < (s.ttyTable i).ttyLeftCnt :=
        lt_of_le_of_ne (hleft i) (Ne.symm hne)
      have htake := takeChar_left (t := { s.ttyTable i with keyBuf := keys })
        (key.setWidth 8) hpos
      split
      · by_cases hj : j = i
        · subst hj
          simpa [Held, Sys.setTty, hpos] using
            ⟨htake.2.1, htake.2.2, htake.1⟩
        · simpa [Held, Sys.setTty, hj, Ne.symm hj] using hleft j
      · rename_i hmore
        by_cases hj : j = i
        · subst hj
          have hstill : 0 < (takeChar { s.ttyTable j with keyBuf := keys }
              (key.setWidth 8)).ttyLeftCnt :=
            lt_of_le_of_ne htake.1 fun heq => hmore (Or.inr heq.symm)
          simpa [Held, Sys.setTty, hpc, hpos, hstill] using
            ⟨htake.2.1, htake.2.2, htake.1⟩
        · simpa [Held, Sys.setTty, hpc, hj] using hleft j
    · rename_i hzero
      by_cases hj : j = i
      · subst hj
        simpa [Held, Sys.setTty, hpc] using hleft j
      · simpa [Held, Sys.setTty, hpc, hj] using hleft j

/-- `tty_dev_read` does. -/
theorem talk_ttyDevRead (h : Talk s) (hidle : Idle (s.table TASK_TTY))
    {i : Nat} (hpc : s.tty = .devRead i) (keys : List (BitVec 32)) :
    Talk { ttyDevRead s i keys with tty := .devWrite i } := by
  have hkeys := keysOnly_ttyDevRead s i keys
  refine talk_ttyReads h hidle ⟨hkeys.table, hkeys.out, hkeys.inb, hkeys.fs⟩
    (fun j => ⟨hkeys.procnr j, caller_ttyDevRead s i j keys, ?_, ?_⟩)
    (by simp [hpc]) (by simp)
  · show 0 ≤ ((ttyDevRead s i keys).ttyTable j).ttyLeftCnt
    rw [hkeys.left]
    exact h.left j
  · rintro (hr | ⟨hl, -⟩)
    · cases hr
    · refine Or.inr ⟨?_, by simp [hpc]⟩
      rw [← hkeys.left]
      exact hl

/-- `tty_dev_write` does. -/
theorem talk_ttyDevWrite (h : Talk s) (hidle : Idle (s.table TASK_TTY))
    {i : Nat} (hpc : s.tty = .devWrite i) : Talk (ttyDevWrite s i) := by
  obtain ⟨htable, hout, hinb, hfs, -, hcases⟩ := ttyDevWrite_cases s hpc
  refine talk_ttyReads h hidle ⟨htable, hout, hinb, hfs⟩ (fun j => ?_)
    (by simp [hpc]) fun pid m hr => ?_
  · obtain ⟨hprocnr, hcaller, hleft, hheld⟩ := ttyDevWrite_reads hpc h.left j
    exact ⟨hprocnr, hcaller, hleft, hheld.mp⟩
  · rcases hcases with ⟨hpc' | hpc', -⟩ | ⟨hpc', -⟩ <;> rw [hpc'] at hr
    · cases hr
    · exact (nextTty_ne i).2.1 pid m hr
    · cases hr

/-- Behind its SEND of `RESUME_PROC` TTY drops the reader. -/
theorem ttyResumed_reads {i : Nat} (hpc : s.tty = .resumed i)
    (hleft : ∀ j, 0 ≤ (s.ttyTable j).ttyLeftCnt) (j : Nat)
    (hs' : s' = { s.setTty i { s.ttyTable i with ttyLeftCnt := 0 } with
      tty := .devWrite i }) :
    (s'.ttyTable j).ttyProcnr = (s.ttyTable j).ttyProcnr ∧
    (s'.ttyTable j).ttyCaller = (s.ttyTable j).ttyCaller ∧
    0 ≤ (s'.ttyTable j).ttyLeftCnt ∧ (Held s' j ↔ Held s j) := by
  subst hs'
  by_cases hj : j = i
  · subst hj
    simp [Held, Sys.setTty, hpc]
  · simpa [Held, Sys.setTty, hpc, hj, Ne.symm hj] using hleft j

/-- What follows a `RESUME_PROC` does. -/
theorem talk_ttyResumed (h : Talk s) (hidle : Idle (s.table TASK_TTY))
    {i : Nat} (hpc : s.tty = .resumed i) :
    Talk { s.setTty i { s.ttyTable i with ttyLeftCnt := 0 } with
      tty := .devWrite i } := by
  refine talk_ttyReads h hidle ⟨rfl, rfl, rfl, rfl⟩ (fun j => ?_)
    (by simp [hpc]) (by simp)
  obtain ⟨hprocnr, hcaller, hleft, hheld⟩ :=
    ttyResumed_reads hpc h.left j rfl
  exact ⟨hprocnr, hcaller, hleft, hheld.mp⟩

/-- What `task_tty` makes of a message. -/
theorem ttyServe_cases (hcall : ttyServe s = .ok s') :
    ∃ q msg, s.inb TASK_TTY = some (q, msg) ∧
      ((∃ minor procNr cnt, msg = .devRead minor procNr cnt ∧
          s' = { s.setTty minor { s.ttyTable minor with
              ttyCaller := q, ttyProcnr := procNr, ttyLeftCnt := cnt,
              ttyTransCnt := 0 } with
            tty := .reply q (.suspendProc cnt) }) ∨
        (msg.isDev = true ∧ (∀ i p c, msg ≠ .devRead i p c) ∧
          ∃ cnt, s' = { s with tty := .reply q (.syscallRet cnt) }) ∨
        (msg.isDev = false ∧ s' = { s with tty := .devRead 0 })) := by
  unfold ttyServe at hcall
  split at hcall
  · cases hcall
  · rename_i q msg hmsg
    simp only [bind_eq_ok, assert_eq_ok, exists_const] at hcall
    obtain ⟨-, hcall⟩ := hcall
    refine ⟨q, msg, hmsg, ?_⟩
    cases msg with
    | devRead minor procNr cnt =>
        exact Or.inl ⟨minor, procNr, cnt, rfl, (pure_eq_ok.mp hcall).symm⟩
    | devOpen minor =>
        exact Or.inr (Or.inl ⟨rfl, by simp, 0, (pure_eq_ok.mp hcall).symm⟩)
    | devWrite minor procNr cnt =>
        exact Or.inr (Or.inl ⟨rfl, by simp, cnt, (pure_eq_ok.mp hcall).symm⟩)
    | _ => exact Or.inr (Or.inr ⟨rfl, (pure_eq_ok.mp hcall).symm⟩)

/-- What TTY does with a message does. -/
theorem talk_ttyServe (h : Talk s) (hidle : Idle (s.table TASK_TTY))
    (hpc : s.tty = .serve)
    (hcnt : ∀ q minor procNr cnt,
      s.inb TASK_TTY = some (q, .devRead minor procNr cnt) → 0 < cnt)
    (hcall : ttyServe s = .ok s') : Talk s' := by
  have hkeep : ∀ i, 0 < (s.ttyTable i).ttyLeftCnt → i < NR_CONSOLES ∧
      (s.ttyTable i).ttyCaller = TASK_FS ∧
      (s.ttyTable i).ttyProcnr ≠ TASK_TTY := fun i hl =>
    h.held i (Or.inr ⟨hl, by simp [hpc]⟩)
  obtain ⟨q, msg, hmsg, ⟨minor, procNr, cnt, rfl, rfl⟩ |
    ⟨hdev, -, cnt, rfl⟩ | ⟨hdev, rfl⟩⟩ := ttyServe_cases hcall
  · obtain ⟨⟨hfs, hprocnr⟩, -, hminor⟩ := h.inb _ _ _ hmsg
    have hpos := hcnt _ _ _ _ hmsg
    refine talk_ttyLocal h hidle ⟨rfl, rfl, rfl, rfl⟩ ?_ ?_ ?_ ?_
    · intro i
      by_cases hi : i = minor
      · subst hi
        simpa [Sys.setTty] using hpos.le
      · simpa [Sys.setTty, hi] using h.left i
    · intro i hi
      by_cases him : i = minor
      · subst him
        simpa [Sys.setTty] using ⟨hminor, hfs, hprocnr⟩
      · have hl : 0 < (s.ttyTable i).ttyLeftCnt := by
          simpa [Held, Sys.setTty, him] using hi
        simpa [Sys.setTty, him] using hkeep i hl
    · intro pid m hr
      cases hr
      exact ⟨hfs, ⟨trivial, fun hne => absurd rfl hne, trivial⟩, rfl⟩
    · exact fun _ => Or.inr (Or.inl ⟨_, _, rfl⟩)
  · have hfs := fs_of_dev (h.inb _ _ _ hmsg).1 hdev
    refine talk_ttyLocal h hidle ⟨rfl, rfl, rfl, rfl⟩ h.left ?_ ?_ ?_
    · intro i hi
      refine hkeep i ?_
      simpa [Held] using hi
    · intro pid m hr
      cases hr
      exact ⟨hfs, ⟨trivial, fun hne => absurd rfl hne, trivial⟩, rfl⟩
    · exact fun _ => Or.inr (Or.inl ⟨_, _, rfl⟩)
  · refine talk_ttyLocal h hidle ⟨rfl, rfl, rfl, rfl⟩ h.left ?_ ?_ ?_
    · intro i hi
      refine hkeep i ?_
      simpa [Held] using hi
    · intro pid m hr
      cases hr
    · intro hw
      rcases h.waits hw with ⟨-, q', m, hm, hdev'⟩ | ⟨pid, m, hr⟩ | ⟨hdr, -⟩
      · rw [hmsg] at hm
        obtain ⟨rfl, rfl⟩ := Prod.mk.inj (Option.some.inj hm)
        rw [hdev] at hdev'
        cases hdev'
      · rw [hpc] at hr
        cases hr
      · rw [hpc] at hdr
        cases hdr

/-! ## TTY's calls -/

/-- A call of TTY finds FS `.serve`, if FS takes its message without waiting
    for TTY only. -/
theorem serve_of_waiting (h : Talk s)
    (hwait : IsWaitingFor s.table TASK_FS TASK_TTY) (hno : ¬ FsWaits s) :
    s.fs = .serve := by
  obtain ⟨hsnd, -, hserve | ⟨hheard, -⟩ | hhd⟩ := h.fsRcv hwait.1
  · exact hserve
  · exact absurd ⟨hsnd, Or.inr ⟨hheard, hwait.1⟩⟩ hno
  · rcases hwait.2 with heq | heq <;> rw [hhd] at heq <;>
      exact absurd heq (by decide)

/-- **TTY SENDS** to FS: a `RESUME_PROC`, or the answer FS waits for. -/
theorem talk_ttySend (h : Talk s) (hrun : (s.table TASK_TTY).procState = RUNNABLE)
    {pc : TtyPc} (hword : Says TASK_TTY msg)
    (hheld : ∀ j, Held { s with tty := pc } j → Held s j)
    (hpc : ((∃ i, pc = .resumed i) ∧ ¬ FsWaits s) ∨
      (pc = .devRead 0 ∧ readerOf msg = none))
    (hcall : { s with tty := pc }.send x TASK_TTY TASK_FS msg = .ok s') :
    Talk s' := by
  obtain ⟨hkept, hout, heff⟩ := send_spec hcall hrun
  obtain ⟨htty, hfs, htt⟩ := hkept
  change s'.tty = pc at htty
  change s'.fs = s.fs at hfs
  change s'.ttyTable = s.ttyTable at htt
  have hnosnd : ¬ SendingTo s.table TASK_FS TASK_TTY := by
    simp only [Sys.send, bind_eq_ok] at hcall
    obtain ⟨res, hres, -⟩ := hcall
    exact not_sendingTo_of_send hres
  have hidle := idle_of_runnable hrun
  have hownout : s'.out TASK_TTY = msg := by rw [hout]; exact setOut_self _ _ _
  have hfsout : s'.out TASK_FS = s.out TASK_FS := by
    rw [hout]; exact setOut_of_ne _ msg (by decide)
  have hne : ∀ pid m, pc ≠ .reply pid m := by
    rcases hpc with ⟨⟨i, rfl⟩, -⟩ | ⟨rfl, -⟩ <;> simp
  -- FS was waiting for TTY and has the message, or TTY blocks on it
  have hfsstate : (Still (s'.table TASK_FS) (s.table TASK_FS) ∧
      s'.inb TASK_FS = s.inb TASK_FS ∧ SendingTo s'.table TASK_TTY TASK_FS) ∨
      (Idle (s'.table TASK_FS) ∧ IsWaitingFor s.table TASK_FS TASK_TTY ∧
        Idle (s'.table TASK_TTY)) := by
    rcases heff with ⟨-, hto, -, hstill, hinb⟩ | ⟨hwait, hidle', hstill, -⟩
    · exact Or.inl ⟨hstill _ (by decide), by rw [hinb], hto⟩
    · have hst := hstill TASK_TTY (by decide)
      exact Or.inr ⟨hidle', hwait, hst.sending.trans hidle.1,
        hst.receiving.trans hidle.2⟩
  have hrec : (s'.table TASK_TTY).procState.receiving = false := by
    rcases heff with ⟨-, -, hrec, -⟩ | ⟨-, -, hstill, -⟩
    · exact hrec
    · exact (hstill TASK_TTY (by decide)).receiving.trans hidle.2
  have hnosnd' : ¬ SendingTo s'.table TASK_FS TASK_TTY := by
    intro hs
    rcases hfsstate with ⟨hst, -⟩ | ⟨hidle', -⟩
    · exact hnosnd ⟨hst.sending ▸ hs.1, hst.target ▸ hs.2⟩
    · exact absurd (hs.1.symm.trans hidle'.1) (by decide)
  constructor
  case out =>
    rw [hout]
    exact says_setOut h.out hword
  case inb =>
    rcases heff with ⟨-, -, -, -, hinb⟩ | ⟨-, -, -, hinb⟩ <;> rw [hinb]
    · exact h.inb
    · refine says_setInb h.inb fun q msg' hv => ?_
      obtain ⟨rfl, rfl⟩ := Prod.mk.inj (Option.some.inj hv)
      exact hword
  case client =>
    rw [hfs]; exact h.client
  case driver =>
    rw [hfs]; exact h.driver
  case left =>
    rw [htt]; exact h.left
  case held =>
    intro i hi
    rw [Held, htty, htt] at hi
    rw [htt]
    exact h.held i (hheld i hi)
  case answer =>
    rw [htty]
    exact fun pid m hr => absurd hr (hne pid m)
  case ttyRcv =>
    intro hr
    rw [hrec] at hr
    cases hr
  case ttySnd =>
    intro hs
    rcases hfsstate with ⟨-, -, hto⟩ | ⟨-, -, hidle'⟩
    · rw [htty, hownout]
      refine ⟨hto.2, ?_⟩
      rcases hpc with ⟨hres, -⟩ | ⟨hdr, hreader⟩
      · exact Or.inl hres
      · exact Or.inr ⟨hdr, hreader⟩
    · exact absurd (hs.symm.trans hidle'.1) (by decide)
  case fsRcv =>
    intro hr
    rcases hfsstate with ⟨hst, hinb, -⟩ | ⟨hidle', -⟩
    · rw [hfs, hinb, hst.sending, hst.source]
      exact h.fsRcv (hst.receiving ▸ hr)
    · exact absurd (hr.symm.trans hidle'.2) (by decide)
  case hear =>
    intro q m hhear hs
    rw [hfs] at hhear
    rcases hfsstate with ⟨hst, -⟩ | ⟨hidle', -⟩
    · rw [hst.target]
      exact h.hear q m hhear (hst.sending ▸ hs)
    · exact absurd (hs.symm.trans hidle'.1) (by decide)
  case call =>
    exact fun hs => absurd hs hnosnd'
  case waits =>
    -- TTY blocks on FS only with the answer that FS waits for
    rintro ⟨hs, hwait⟩
    rw [hfs] at hwait
    rcases hfsstate with ⟨hst, -, hto⟩ | ⟨hidle', hwaiting, -⟩
    · rcases hpc with ⟨-, hno⟩ | ⟨rfl, -⟩
      · exact absurd ⟨hst.sending ▸ hs, hst.receiving ▸ hwait⟩ hno
      · exact Or.inr (Or.inr ⟨htty, hto⟩)
    · rcases hwait with ⟨q, m, hhear⟩ | ⟨-, hr⟩
      · obtain ⟨-, -, hcases⟩ := h.fsRcv hwaiting.1
        rw [hhear] at hcases
        rcases hcases with hc | ⟨⟨q', m', hc⟩, -⟩ | hhd
        · cases hc
        · cases hc
        · rcases hwaiting.2 with heq | heq <;> rw [hhd] at heq <;>
            exact absurd heq (by decide)
      · exact absurd (hr.symm.trans hidle'.2) (by decide)
  case apart =>
    exact fun hb => hnosnd' hb.1

/-- Its RECEIVE does. -/
theorem talk_ttyReceive (h : Talk s)
    (hrun : (s.table TASK_TTY).procState = RUNNABLE) (hpc : s.tty = .receive)
    (hcall : { s with tty := .serve }.rcv x TASK_TTY ANY = .ok s') :
    Talk s' := by
  obtain ⟨hkept, hout, heff⟩ := rcv_spec hcall
  have hidle := idle_of_runnable hrun
  have h₀ : Talk { s with tty := .serve } := by
    refine talk_ttyReads h hidle ⟨rfl, rfl, rfl, rfl⟩ (fun j => ⟨rfl, rfl,
      h.left j, fun hj => ?_⟩) (by simp [hpc]) (by simp)
    simpa [Held, hpc] using hj
  obtain ⟨hsout, hsinb⟩ := says_rcv h₀ hcall
  obtain ⟨htty, hfs, htt⟩ := hkept
  change s'.tty = .serve at htty
  change s'.fs = s.fs at hfs
  change s'.ttyTable = s.ttyTable at htt
  change s'.out = s.out at hout
  have hnot : ¬ FsWaits s :=
    not_waits h hidle (by simp [hpc]) (by simp [hpc])
  have hinbfs : s'.inb TASK_FS = s.inb TASK_FS := by
    rcases heff with ⟨-, -, hinb⟩ | ⟨q, -, -, -, -, -, hinb⟩ |
      ⟨-, -, -, -, -, hinb⟩ <;>
    rw [hinb, setInb_of_ne _ _ (by decide)]
  have hsending : (s'.table TASK_TTY).procState.sending = false := by
    rcases heff with ⟨-, hstill, -⟩ | ⟨q, -, hst, -, -, hstill, -⟩ |
      ⟨-, -, hsnd, -⟩
    · exact (hstill _).sending.trans hidle.1
    · have hne : TASK_TTY ≠ q := by
        rintro rfl
        change (s.table TASK_TTY).procState = SENDING at hst
        rw [hrun] at hst
        cases hst
      exact (hstill _ hne).sending.trans hidle.1
    · exact hsnd.trans hidle.1
  have hfsstate : Still (s'.table TASK_FS) (s.table TASK_FS) ∨
      (Idle (s'.table TASK_FS) ∧ SendingTo s.table TASK_FS TASK_TTY ∧
        s'.inb TASK_TTY = some (TASK_FS, s.out TASK_FS)) := by
    rcases heff with ⟨-, hstill, -⟩ | ⟨q, -, -, hto, hidle', hstill, hinb⟩ |
      ⟨-, -, -, -, hstill, -⟩
    · exact Or.inl (hstill _)
    · by_cases hq : TASK_FS = q
      · subst hq
        exact Or.inr ⟨hidle', hto, by rw [hinb, setInb_self]⟩
      · exact Or.inl (hstill _ hq)
    · exact Or.inl (hstill _ (by decide))
  constructor
  case out => exact hsout
  case inb => exact hsinb
  case client =>
    rw [hfs]
    exact h.client
  case driver =>
    rw [hfs]
    exact h.driver
  case left =>
    rw [htt]
    exact h.left
  case held =>
    intro i hi
    rw [Held, htty, htt] at hi
    rw [htt]
    exact h₀.held i hi
  case answer =>
    rw [htty]
    exact h₀.answer
  case ttyRcv =>
    intro hr
    refine ⟨htty, ?_⟩
    rcases heff with ⟨-, hstill, -⟩ | ⟨q, -, hst, -, -, hstill, -⟩ |
      ⟨-, -, -, -, -, hinb⟩
    · exact absurd (hr.symm.trans ((hstill _).receiving.trans hidle.2))
        (by decide)
    · have hne : TASK_TTY ≠ q := by
        rintro rfl
        change (s.table TASK_TTY).procState = SENDING at hst
        rw [hrun] at hst
        cases hst
      exact absurd (hr.symm.trans ((hstill _ hne).receiving.trans hidle.2))
        (by decide)
    · rw [hinb, setInb_self]
  case ttySnd =>
    intro hs
    rw [hsending] at hs
    cases hs
  case fsRcv =>
    intro hr
    rcases hfsstate with hst | ⟨hidle', -⟩
    · rw [hfs, hinbfs, hst.sending, hst.source]
      exact h.fsRcv (hst.receiving ▸ hr)
    · exact absurd (hr.symm.trans hidle'.2) (by decide)
  case hear =>
    intro q m hhear hs
    rw [hfs] at hhear
    rcases hfsstate with hst | ⟨hidle', -⟩
    · rw [hst.target]
      exact h.hear q m hhear (hst.sending ▸ hs)
    · exact absurd (hs.symm.trans hidle'.1) (by decide)
  case call =>
    intro hs
    rw [hfs, hout]
    rcases hfsstate with hst | ⟨hidle', -⟩
    · exact h.call ⟨hst.sending ▸ hs.1, hst.target ▸ hs.2⟩
    · exact absurd (hs.1.symm.trans hidle'.1) (by decide)
  case waits =>
    -- FS waits for TTY from now on, if it is the one TTY hears
    rintro ⟨hs, hwait⟩
    rw [hfs] at hwait
    rcases hfsstate with hst | ⟨-, hto, hinb⟩
    · exact absurd ⟨hst.sending ▸ hs, hst.receiving ▸ hwait⟩ hnot
    · exact Or.inl ⟨htty, TASK_FS, _, hinb, (h.call hto).2⟩
  case apart =>
    rintro ⟨-, hs, -⟩
    rw [hsending] at hs
    cases hs

/-! ## FS -/

/-- A step of FS between two calls. -/
theorem talk_fsLocal (h : Talk s) (hidle : Idle (s.table TASK_FS))
    (pc : FsPc) (hclient : ∀ q, pc.client = some q → q ≠ TASK_TTY)
    (hdriver : ∀ q m, pc = .callTty q m →
      Says TASK_FS m ∧ m.isDev = true)
    (hpc : ∀ q m, pc ≠ .hearTty q m) : Talk { s with fs := pc } := by
  refine ⟨h.out, h.inb, hclient, hdriver, h.left, h.held, h.answer, h.ttyRcv,
    h.ttySnd, ?_, ?_, ?_, ?_, h.apart⟩
  · exact fun hr => absurd (hr.symm.trans hidle.2) (by decide)
  · exact fun q m hhear => absurd hhear (hpc q m)
  · exact fun hs => absurd (hs.1.symm.trans hidle.1) (by decide)
  · rintro ⟨-, ⟨q, m, hhear⟩ | ⟨-, hr⟩⟩
    · exact absurd hhear (hpc q m)
    · exact absurd (hr.symm.trans hidle.2) (by decide)

/-- What `task_fs` makes of a message. -/
theorem fsServe_cases (h : Talk s) (hcall : fsServe s = .ok s') :
    ∃ q msg, s.inb TASK_FS = some (q, msg) ∧ ∃ pc, s' = { s with fs := pc } ∧
      pc.client ≠ some TASK_TTY ∧ pc ≠ .serve ∧ (∀ q m, pc ≠ .hearTty q m) ∧
      ∀ q m, pc = .callTty q m → Says TASK_FS m ∧ m.isDev = true := by
  unfold fsServe at hcall
  split at hcall
  · rename_i q dev hmsg
    have hword := h.inb _ _ _ hmsg
    refine ⟨q, _, hmsg, _, (pure_eq_ok.mp hcall).symm, ?_, by simp, by simp,
      by simp⟩
    exact fun heq => hword.1 (Option.some.inj heq)
  · rename_i q write minor cnt hmsg
    obtain ⟨hfits, -, hdev⟩ := h.inb _ _ _ hmsg
    refine ⟨q, _, hmsg, _, (pure_eq_ok.mp hcall).symm,
      fun heq => hfits (Option.some.inj heq), by simp, by simp, ?_⟩
    intro q' m hc
    obtain ⟨rfl, rfl⟩ := FsPc.callTty.inj hc
    have hminor : minor < NR_CONSOLES := by simpa using hdev
    cases write with
    | true => exact ⟨⟨rfl, fun hne => absurd rfl hne, trivial⟩, rfl⟩
    | false => exact ⟨⟨⟨rfl, hfits⟩, fun hne => absurd rfl hne, hminor⟩, rfl⟩
  · rename_i q write cnt hmsg
    obtain ⟨hfits, -⟩ := h.inb _ _ _ hmsg
    exact ⟨q, _, hmsg, _, (pure_eq_ok.mp hcall).symm,
      fun heq => hfits (Option.some.inj heq), by simp, by simp, by simp⟩
  · rename_i q hmsg
    obtain ⟨hfits, -⟩ := h.inb _ _ _ hmsg
    exact ⟨q, _, hmsg, _, (pure_eq_ok.mp hcall).symm,
      fun heq => hfits (Option.some.inj heq), by simp, by simp, by simp⟩
  · rename_i q procNr cnt hmsg
    obtain ⟨hfits, -⟩ := h.inb _ _ _ hmsg
    exact ⟨q, _, hmsg, _, (pure_eq_ok.mp hcall).symm,
      fun heq => hfits (Option.some.inj heq), by simp, by simp, by simp⟩
  · cases hcall

/-- Behind its call of TTY FS answers the process, or leaves it suspended. -/
theorem fsHeard_cases (hcall : fsHeard s src msg = .ok s') :
    ∃ pc, s' = { s with fs := pc } ∧ (pc = .reply src ∨ pc = .receive) := by
  unfold fsHeard at hcall
  split at hcall
  · exact ⟨_, (pure_eq_ok.mp hcall).symm, Or.inl rfl⟩
  · split at hcall
    · cases hcall
    · simp only [bind_eq_ok, assert_eq_ok, exists_const] at hcall
      obtain ⟨-, hcall⟩ := hcall
      split at hcall
      · exact ⟨_, (pure_eq_ok.mp hcall).symm, Or.inr rfl⟩
      · exact ⟨_, (pure_eq_ok.mp hcall).symm, Or.inl rfl⟩

/-- **FS SENDS** to somebody else than TTY. -/
theorem talk_fsSend (h : Talk s) (hrun : (s.table TASK_FS).procState = RUNNABLE)
    {pc : FsPc} (hword : Says TASK_FS msg) (hr : r ≠ TASK_TTY)
    (hclient : ∀ q, pc.client = some q → q ≠ TASK_TTY)
    (hpc : (∀ q m, pc ≠ .hearTty q m) ∧ (∀ q m, pc ≠ .callTty q m) ∧
      ∀ q m, pc ≠ .heard q m)
    (hcall : { s with fs := pc }.send x TASK_FS r msg = .ok s') : Talk s' := by
  obtain ⟨hkept, hout, heff⟩ := send_spec hcall hrun
  obtain ⟨htty, hfs, htt⟩ := hkept
  change s'.tty = s.tty at htty
  change s'.fs = pc at hfs
  change s'.ttyTable = s.ttyTable at htt
  have hidle := idle_of_runnable hrun
  have hne : r ≠ TASK_FS := by
    simp only [Sys.send, bind_eq_ok] at hcall
    obtain ⟨res, hres, -⟩ := hcall
    exact (kernelMsgSend_cases hres).1.symm
  have httyout : s'.out TASK_TTY = s.out TASK_TTY := by
    rw [hout]; exact setOut_of_ne _ msg (by decide)
  have hst : Still (s'.table TASK_TTY) (s.table TASK_TTY) := by
    rcases heff with ⟨-, -, -, hstill, -⟩ | ⟨-, -, hstill, -⟩
    · exact hstill _ (by decide)
    · exact hstill _ hr.symm
  have hinb : s'.inb TASK_TTY = s.inb TASK_TTY := by
    rcases heff with ⟨-, -, -, -, hinb⟩ | ⟨-, -, -, hinb⟩ <;> rw [hinb]
    exact setInb_of_ne _ _ hr.symm
  have hrec : (s'.table TASK_FS).procState.receiving = false := by
    rcases heff with ⟨-, -, hrec, -⟩ | ⟨-, -, hstill, -⟩
    · exact hrec
    · exact (hstill _ hne.symm).receiving.trans hidle.2
  have hnosnd : ¬ SendingTo s'.table TASK_FS TASK_TTY := by
    intro hs
    rcases heff with ⟨-, hto, -⟩ | ⟨-, -, hstill, -⟩
    · exact hr (hto.2.symm.trans hs.2)
    · have hst := hstill _ hne.symm
      exact absurd (hs.1.symm.trans (hst.sending.trans hidle.1)) (by decide)
  constructor
  case out =>
    rw [hout]
    exact says_setOut h.out hword
  case inb =>
    rcases heff with ⟨-, -, -, -, hinb⟩ | ⟨-, -, -, hinb⟩ <;> rw [hinb]
    · exact h.inb
    · refine says_setInb h.inb fun q msg' hv => ?_
      obtain ⟨rfl, rfl⟩ := Prod.mk.inj (Option.some.inj hv)
      exact hword
  case client =>
    rw [hfs]; exact hclient
  case driver =>
    rw [hfs]; exact fun q m hc => absurd hc (hpc.2.1 q m)
  case left =>
    rw [htt]; exact h.left
  case held =>
    intro i hi
    rw [Held, htty, htt] at hi
    rw [htt]
    exact h.held i hi
  case answer =>
    rw [htty]; exact h.answer
  case ttyRcv =>
    rw [hst.receiving, htty, hinb]; exact h.ttyRcv
  case ttySnd =>
    rw [hst.sending, hst.target, htty, httyout]; exact h.ttySnd
  case fsRcv =>
    intro hr'
    rw [hrec] at hr'
    cases hr'
  case hear =>
    rw [hfs]; exact fun q m hhear => absurd hhear (hpc.1 q m)
  case call =>
    exact fun hs => absurd hs hnosnd
  case waits =>
    rintro ⟨-, hwait⟩
    rw [hfs] at hwait
    rcases hwait with ⟨q, m, hhear⟩ | ⟨⟨q, m, hheard⟩, -⟩
    · exact absurd hhear (hpc.1 q m)
    · exact absurd hheard (hpc.2.2 q m)
  case apart =>
    exact fun hb => hnosnd hb.1

/-- **FS CALLS TTY**. -/
theorem talk_fsCallTty (h : Talk s)
    (hrun : (s.table TASK_FS).procState = RUNNABLE) (hpc : s.fs = .callTty src msg)
    (hcall : { s with fs := .hearTty src msg }.send x TASK_FS TASK_TTY msg =
      .ok s') : Talk s' := by
  obtain ⟨hkept, hout, heff⟩ := send_spec hcall hrun
  obtain ⟨htty, hfs, htt⟩ := hkept
  change s'.tty = s.tty at htty
  change s'.fs = .hearTty src msg at hfs
  change s'.ttyTable = s.ttyTable at htt
  obtain ⟨hword, hdev⟩ := h.driver src msg hpc
  have hnosnd : ¬ SendingTo s.table TASK_TTY TASK_FS := by
    simp only [Sys.send, bind_eq_ok] at hcall
    obtain ⟨res, hres, -⟩ := hcall
    exact not_sendingTo_of_send hres
  have hidle := idle_of_runnable hrun
  have hownout : s'.out TASK_FS = msg := by rw [hout]; exact setOut_self _ _ _
  have httyout : s'.out TASK_TTY = s.out TASK_TTY := by
    rw [hout]; exact setOut_of_ne _ msg (by decide)
  -- TTY has the message, or FS waits until it takes it
  have hstate : (Still (s'.table TASK_TTY) (s.table TASK_TTY) ∧
      s'.inb TASK_TTY = s.inb TASK_TTY ∧ SendingTo s'.table TASK_FS TASK_TTY ∧
      (s'.table TASK_FS).procState.receiving = false) ∨
      (Idle (s'.table TASK_TTY) ∧ s.tty = .serve ∧
        s'.inb TASK_TTY = some (TASK_FS, msg) ∧ Idle (s'.table TASK_FS)) := by
    rcases heff with ⟨-, hto, hrec, hstill, hinb⟩ | ⟨hwait, hidle', hstill, hinb⟩
    · exact Or.inl ⟨hstill _ (by decide), by rw [hinb], hto, hrec⟩
    · have hst := hstill TASK_FS (by decide)
      exact Or.inr ⟨hidle', (h.ttyRcv hwait.1).1, by rw [hinb, setInb_self],
        hst.sending.trans hidle.1, hst.receiving.trans hidle.2⟩
  have hnosnd' : ¬ SendingTo s'.table TASK_TTY TASK_FS := by
    intro hs
    rcases hstate with ⟨hst, -⟩ | ⟨hidle', -⟩
    · exact hnosnd ⟨hst.sending ▸ hs.1, hst.target ▸ hs.2⟩
    · exact absurd (hs.1.symm.trans hidle'.1) (by decide)
  constructor
  case out =>
    rw [hout]
    exact says_setOut h.out hword
  case inb =>
    rcases heff with ⟨-, -, -, -, hinb⟩ | ⟨-, -, -, hinb⟩ <;> rw [hinb]
    · exact h.inb
    · refine says_setInb h.inb fun q msg' hv => ?_
      obtain ⟨rfl, rfl⟩ := Prod.mk.inj (Option.some.inj hv)
      exact hword
  case client =>
    rw [hfs]
    exact fun q hq => h.client q (by rw [hpc]; exact hq)
  case driver =>
    rw [hfs]; exact fun q m hc => by cases hc
  case left =>
    rw [htt]; exact h.left
  case held =>
    intro i hi
    rw [Held, htty, htt] at hi
    rw [htt]
    exact h.held i hi
  case answer =>
    rw [htty]; exact h.answer
  case ttyRcv =>
    intro hr
    rcases hstate with ⟨hst, hinb, -⟩ | ⟨hidle', -⟩
    · rw [htty, hinb]
      exact h.ttyRcv (hst.receiving ▸ hr)
    · exact absurd (hr.symm.trans hidle'.2) (by decide)
  case ttySnd =>
    intro hs
    rcases hstate with ⟨hst, -⟩ | ⟨hidle', -⟩
    · rw [hst.target, htty, httyout]
      exact h.ttySnd (hst.sending ▸ hs)
    · exact absurd (hs.symm.trans hidle'.1) (by decide)
  case fsRcv =>
    intro hr
    rcases hstate with ⟨-, -, -, hrec⟩ | ⟨-, -, -, hidle'⟩
    · rw [hrec] at hr
      cases hr
    · exact absurd (hr.symm.trans hidle'.2) (by decide)
  case hear =>
    intro q m _ hs
    rcases hstate with ⟨-, -, hto, -⟩ | ⟨-, -, -, hidle'⟩
    · exact hto.2
    · exact absurd (hs.symm.trans hidle'.1) (by decide)
  case call =>
    exact fun _ => ⟨⟨src, msg, hfs⟩, by rw [hownout]; exact hdev⟩
  case waits =>
    rintro ⟨hs, -⟩
    rcases hstate with ⟨-, -, hto, -⟩ | ⟨-, hserve, hinb, -⟩
    · exact absurd (hto.1.symm.trans hs) (by decide)
    · exact Or.inl ⟨htty.trans hserve, TASK_FS, msg, hinb, hdev⟩
  case apart =>
    exact fun hb => hnosnd' hb.2

/-- **FS RECEIVES**. -/
theorem talk_fsRcv (h : Talk s) (hrun : (s.table TASK_FS).procState = RUNNABLE)
    {pc : FsPc} (hclient : ∀ q, pc.client = some q → q ≠ TASK_TTY)
    (hpc : (∀ q m, pc ≠ .hearTty q m) ∧ ∀ q m, pc ≠ .callTty q m)
    (hsrc : pc = .serve ∨
      ((∃ q m, pc = .heard q m) ∧ src = TASK_TTY ∧ Answering s) ∨
      src = TASK_HD ∧ ∀ q m, pc ≠ .heard q m)
    (hcall : { s with fs := pc }.rcv x TASK_FS src = .ok s') : Talk s' := by
  obtain ⟨hkept, hout, heff⟩ := rcv_spec hcall
  obtain ⟨htty, hfs, htt⟩ := hkept
  change s'.tty = s.tty at htty
  change s'.fs = pc at hfs
  change s'.ttyTable = s.ttyTable at htt
  change s'.out = s.out at hout
  have hidle := idle_of_runnable hrun
  have hinb : s'.inb TASK_TTY = s.inb TASK_TTY := by
    rcases heff with ⟨-, -, hinb⟩ | ⟨q, -, -, -, -, -, hinb⟩ |
      ⟨-, -, -, -, -, hinb⟩ <;>
    rw [hinb, setInb_of_ne _ _ (by decide)]
  have hsinb : ∀ r q msg, s'.inb r = some (q, msg) → Says q msg := by
    rcases heff with ⟨-, -, hinb⟩ | ⟨q, -, -, -, -, -, hinb⟩ |
      ⟨-, -, -, -, -, hinb⟩ <;> rw [hinb]
    · refine says_setInb h.inb fun y msg hv => ?_
      obtain ⟨rfl, rfl⟩ := Prod.mk.inj (Option.some.inj hv)
      exact says_hwInt _
    · refine says_setInb h.inb fun y msg hv => ?_
      obtain ⟨rfl, rfl⟩ := Prod.mk.inj (Option.some.inj hv)
      exact h.out _
    · exact says_setInb h.inb fun y msg hv => by cases hv
  have hloose : Looser (s'.table TASK_TTY) (s.table TASK_TTY) := by
    rcases heff with ⟨-, hstill, -⟩ | ⟨q, -, -, -, hidle', hstill, -⟩ |
      ⟨-, -, -, -, hstill, -⟩
    · exact Or.inl (hstill _)
    · by_cases hq : TASK_TTY = q
      · rw [hq]
        exact Or.inr hidle'
      · exact Or.inl (hstill _ hq)
    · exact Or.inl (hstill _ (by decide))
  -- FS goes on, or waits
  have hfsstate : Idle (s'.table TASK_FS) ∨
      ((s'.table TASK_FS).procState.sending = false ∧
        (s'.table TASK_FS).pidRecvingfrom = src ∧ s'.inb TASK_FS = none ∧
        Still (s'.table TASK_TTY) (s.table TASK_TTY)) := by
    rcases heff with ⟨-, hstill, -⟩ | ⟨q, -, hst, -, -, hstill, -⟩ |
      ⟨-, hfrom, hsnd, -, hstill, hinb⟩
    · have hst := hstill TASK_FS
      exact Or.inl ⟨hst.sending.trans hidle.1, hst.receiving.trans hidle.2⟩
    · have hne : TASK_FS ≠ q := by
        rintro rfl
        change (s.table TASK_FS).procState = SENDING at hst
        rw [hrun] at hst
        cases hst
      have hst := hstill TASK_FS hne
      exact Or.inl ⟨hst.sending.trans hidle.1, hst.receiving.trans hidle.2⟩
    · exact Or.inr ⟨hsnd.trans hidle.1, hfrom, by rw [hinb, setInb_self],
        hstill _ (by decide)⟩
  have hnosnd : (s'.table TASK_FS).procState.sending = false := by
    rcases hfsstate with hidle' | ⟨hsnd, -⟩
    · exact hidle'.1
    · exact hsnd
  refine ⟨by rw [hout]; exact h.out, hsinb, ?_, ?_, ?_, ?_, ?_, ?_, ?_, ?_,
    ?_, ?_, ?_, ?_⟩
  · rw [hfs]; exact hclient
  · rw [hfs]; exact fun q m hc => absurd hc (hpc.2 q m)
  · rw [htt]; exact h.left
  · intro i hi
    rw [Held, htty, htt] at hi
    rw [htt]
    exact h.held i hi
  · rw [htty]; exact h.answer
  · intro hr
    rcases hloose with hst | hidle'
    · rw [htty, hinb]
      exact h.ttyRcv (hst.receiving ▸ hr)
    · exact absurd (hr.symm.trans hidle'.2) (by decide)
  · intro hs
    rcases hloose with hst | hidle'
    · rw [hst.target, htty, hout]
      exact h.ttySnd (hst.sending ▸ hs)
    · exact absurd (hs.symm.trans hidle'.1) (by decide)
  · intro hr
    rcases hfsstate with hidle' | ⟨hsnd, hfrom, hnone, -⟩
    · exact absurd (hr.symm.trans hidle'.2) (by decide)
    · refine ⟨hsnd, hnone, ?_⟩
      rw [hfs, hfrom]
      rcases hsrc with hserve | ⟨hheard, hsrc, -⟩ | ⟨hsrc, -⟩
      · exact Or.inl hserve
      · exact Or.inr (Or.inl ⟨hheard, hsrc⟩)
      · exact Or.inr (Or.inr hsrc)
  · rw [hfs]; exact fun q m hhear => absurd hhear (hpc.1 q m)
  · intro hs
    exact absurd (hs.1.symm.trans hnosnd) (by decide)
  · rintro ⟨-, hwait⟩
    rw [hfs] at hwait
    rcases hwait with ⟨q, m, hhear⟩ | ⟨⟨q, m, hheard⟩, hr⟩
    · exact absurd hhear (hpc.1 q m)
    · rcases hfsstate with hidle' | ⟨-, -, -, hst⟩
      · exact absurd (hr.symm.trans hidle'.2) (by decide)
      · rcases hsrc with hserve | ⟨-, -, hans⟩ | ⟨-, hno⟩
        · rw [hserve] at hheard
          cases hheard
        · rw [Answering, htty, hinb, SendingTo, hst.sending, hst.target]
          exact hans
        · exact absurd hheard (hno q m)
  · rintro ⟨hs, -⟩
    exact absurd (hs.1.symm.trans hnosnd) (by decide)

/-! ## The tally -/

instance (T : Table) (p r : Int) : Decidable (SendingTo T p r) :=
  inferInstanceAs (Decidable (_ ∧ _))

instance (s : Sys) (i : Nat) : Decidable (Held s i) :=
  inferInstanceAs (Decidable (_ ∨ _))

/-- Tty `i` holds a read of `p`. -/
def held (s : Sys) (p : Int) (i : Nat) : Nat :=
  if Held s i ∧ (s.ttyTable i).ttyProcnr = p then 1 else 0

/-- TTY is SENDING a `RESUME_PROC` for `p`. -/
def sent (s : Sys) (p : Int) : Nat :=
  if SendingTo s.table TASK_TTY TASK_FS ∧
    readerOf (s.out TASK_TTY) = some p then 1 else 0

/-- FS has a `RESUME_PROC` for `p` before it. -/
def got (s : Sys) (p : Int) : Nat :=
  if s.fs = .serve ∧
    (s.inb TASK_FS).bind (fun m => readerOf m.2) = some p then 1 else 0

/-- The book is right. -/
structure Tally (a : Booked) : Prop where
  owed : ∀ p, a.2.owed p = ∑ i ∈ Finset.range NR_CONSOLES, held a.1 p i +
    (sent a.1 p + got a.1 p)
  once : ∀ i, a.2.resumes i ≤ 1
  fresh : ∀ i, Held a.1 i → a.2.resumes i = 0

/-- A sum whose terms change at one place. -/
theorem sum_one {n i : Nat} (hi : i < n) {f g : Nat → Nat}
    (h : ∀ j, j ≠ i → f j = g j) :
    ∑ j ∈ Finset.range n, f j + g i = ∑ j ∈ Finset.range n, g j + f i := by
  have hmem := Finset.mem_range.mpr hi
  have hrest : ∑ j ∈ (Finset.range n).erase i, f j =
      ∑ j ∈ (Finset.range n).erase i, g j :=
    Finset.sum_congr rfl fun j hj => h j (Finset.ne_of_mem_erase hj)
  rw [← Finset.add_sum_erase _ f hmem, ← Finset.add_sum_erase _ g hmem, hrest]
  omega

/-- A terminal that has not changed holds the same reader. -/
theorem held_eq {j : Nat} (h : Held s' j ↔ Held s j)
    (hprocnr : (s'.ttyTable j).ttyProcnr = (s.ttyTable j).ttyProcnr) (p : Int) :
    held s' p j = held s p j := by
  simp only [held, h, hprocnr]

/-- Nothing is on its way while TTY does not send. -/
theorem sent_of_silent (h : (s.table TASK_TTY).procState.sending = false)
    (p : Int) : sent s p = 0 :=
  if_neg fun hs => absurd (hs.1.1.symm.trans h) (by decide)

/-- What is on its way to FS. -/
theorem sent_of_sending {q : Int} (h : SendingTo s.table TASK_TTY TASK_FS)
    (hreader : readerOf (s.out TASK_TTY) = some q) (p : Int) :
    sent s p = if q = p then 1 else 0 := by
  simp [sent, h, hreader]

/-- Another message is no answer to a reader. -/
theorem sent_of_other (h : readerOf (s.out TASK_TTY) = none) (p : Int) :
    sent s p = 0 :=
  if_neg fun hs => by rw [h] at hs; cases hs.2

/-- FS has got nothing while it does not serve. -/
theorem got_of_elsewhere (h : s.fs ≠ .serve) (p : Int) : got s p = 0 :=
  if_neg fun hs => h hs.1

theorem got_of_none (h : s.inb TASK_FS = none) (p : Int) : got s p = 0 :=
  if_neg fun hs => by rw [h] at hs; cases hs.2

/-- What FS has got. -/
theorem got_of_inb {q : Int} (hmsg : s.inb TASK_FS = some (q, msg))
    (hserve : s.fs = .serve) (p : Int) :
    got s p = if readerOf msg = some p then 1 else 0 := by
  simp [got, hserve, hmsg]

/-- Another message is none. -/
theorem got_of_other {q : Int} (hmsg : s.inb TASK_FS = some (q, msg))
    (hreader : readerOf msg = none) (p : Int) : got s p = 0 :=
  if_neg fun hs => by rw [hmsg] at hs; exact absurd (hreader.symm.trans hs.2) (by simp)

/-- It depends on the place and the message of FS. -/
theorem got_eq (hfs : s'.fs = s.fs) (hinb : s'.inb TASK_FS = s.inb TASK_FS)
    (p : Int) : got s' p = got s p := by
  rw [got, got, hfs, hinb]

/-- The same readers, and the same messages on their way. -/
theorem tally_same {b : Book} (h : Tally (s, b))
    (hheld : ∀ j, Held s' j ↔ Held s j)
    (hprocnr : ∀ j, (s'.ttyTable j).ttyProcnr = (s.ttyTable j).ttyProcnr)
    (hway : ∀ p, sent s' p + got s' p = sent s p + got s p) :
    Tally (s', b) := by
  refine ⟨fun p => ?_, h.once, fun i hi => h.fresh i ((hheld i).mp hi)⟩
  have hsum : ∑ i ∈ Finset.range NR_CONSOLES, held s' p i =
      ∑ i ∈ Finset.range NR_CONSOLES, held s p i :=
    Finset.sum_congr rfl fun j _ => held_eq (hheld j) (hprocnr j) p
  rw [hsum, hway p]
  exact h.owed p

/-- The tally stays when neither TTY nor FS moves. -/
theorem tally_aside {b : Book} (ht : Talk s) (ha : Aside s s')
    (h : Tally (s, b)) : Tally (s', b) := by
  obtain ⟨hpc, hfs, htt⟩ := ha.kept
  refine tally_same h (fun j => by rw [Held, Held, hpc, htt])
    (fun j => by rw [htt]) fun p => ?_
  have hsent : sent s' p = sent s p := by
    rw [sent, sent, ha.out.1]
    simp only [ttySending_aside ht ha]
  have hgot : got s' p = got s p := by
    rcases ha.fs with ⟨-, hinb⟩ | ⟨-, ⟨hrec, -, q, m, hm, hreader⟩ | ⟨hinb, -⟩⟩
    · exact got_eq hfs hinb p
    · rw [got_of_none (ht.fsRcv hrec).2.1, got_of_other hm hreader]
    · exact got_eq hfs hinb p
  rw [hsent, hgot]

/-- A step of TTY between two calls that keeps the readers. -/
theorem tally_ttyLocal {b : Book} (h : Tally (s, b)) (hloc : TtyLocal s s')
    (hheld : ∀ j, Held s' j ↔ Held s j)
    (hprocnr : ∀ j, (s'.ttyTable j).ttyProcnr = (s.ttyTable j).ttyProcnr) :
    Tally (s', b) := by
  obtain ⟨htable, hout, hinb, hfs⟩ := hloc
  refine tally_same h hheld hprocnr fun p => ?_
  rw [got_eq hfs (by rw [hinb]), sent, sent, htable, hout]

/-- **TTY SUSPENDS** a reader. -/
theorem tally_suspend {b : Book} {minor : Nat} {q procNr cnt : Int}
    (h : Tally (s, b)) (hpc : s.tty = .serve) (hminor : minor < NR_CONSOLES)
    (hcnt : 0 < cnt) (hfree : (s.ttyTable minor).ttyLeftCnt = 0)
    (hs' : s' = { s.setTty minor { s.ttyTable minor with
        ttyCaller := q, ttyProcnr := procNr, ttyLeftCnt := cnt,
        ttyTransCnt := 0 } with
      tty := .reply q (.suspendProc cnt) }) :
    Tally (s', b.suspend minor procNr) := by
  have hother : ∀ j, j ≠ minor → (Held s' j ↔ Held s j) ∧
      (s'.ttyTable j).ttyProcnr = (s.ttyTable j).ttyProcnr := by
    intro j hj
    subst hs'
    simp [Held, Sys.setTty, hj, hpc]
  have hnot : ¬ Held s minor := by simp [Held, hpc, hfree]
  have hnow : (s'.ttyTable minor).ttyProcnr = procNr ∧ Held s' minor := by
    subst hs'
    simp [Held, Sys.setTty, hcnt]
  refine ⟨fun p => ?_, fun i => ?_, fun i hi => ?_⟩
  · have hsum := sum_one hminor (f := held s' p) (g := held s p)
      fun j hj => held_eq (hother j hj).1 (hother j hj).2 p
    have hbefore : held s p minor = 0 := if_neg fun hh => hnot hh.1
    have hafter : held s' p minor = if p = procNr then 1 else 0 := by
      simp [held, hnow, eq_comm]
    have hway : sent s' p = sent s p ∧ got s' p = got s p := by
      subst hs'
      exact ⟨rfl, rfl⟩
    have hold : b.owed p = ∑ i ∈ Finset.range NR_CONSOLES, held s p i +
      (sent s p + got s p) := h.owed p
    show (if p = procNr then b.owed p + 1 else b.owed p) =
      ∑ i ∈ Finset.range NR_CONSOLES, held s' p i + (sent s' p + got s' p)
    rw [hway.1, hway.2]
    by_cases hp : p = procNr
    · rw [if_pos hp] at hafter ⊢
      omega
    · rw [if_neg hp] at hafter ⊢
      omega
  · show (if i = minor then 0 else b.resumes i) ≤ 1
    split
    · exact Nat.zero_le 1
    · exact h.once i
  · show (if i = minor then 0 else b.resumes i) = 0
    split
    · rfl
    · rename_i hne
      exact h.fresh i ((hother i hne).1.mp hi)

/-- **TTY SENDS** `RESUME_PROC`. -/
theorem tally_resume {b : Book} {i : Nat} {cnt : Int} (ht : Talk s)
    (h : Tally (s, b)) (hrun : (s.table TASK_TTY).procState = RUNNABLE)
    (hpc : s.tty = .resume i)
    (hcall : { s with tty := .resumed i }.send x TASK_TTY TASK_FS
      (.resumeProc (s.ttyTable i).ttyProcnr cnt) = .ok s') :
    Tally (s', b.resume i) := by
  obtain ⟨⟨htty, hfs, htt⟩, hout, heff⟩ := send_spec hcall hrun
  change s'.tty = .resumed i at htty
  change s'.fs = s.fs at hfs
  change s'.ttyTable = s.ttyTable at htt
  have hidle := idle_of_runnable hrun
  have hi : i < NR_CONSOLES := (ht.held i (Or.inl hpc)).1
  have hother : ∀ j, j ≠ i → (Held s' j ↔ Held s j) := by
    intro j hj
    simp [Held, htty, htt, hpc, Ne.symm hj]
  have hgone : ¬ Held s' i := by simp [Held, htty]
  have hnot : ¬ FsWaits s :=
    not_waits ht hidle (by simp [hpc]) (by simp [hpc])
  refine ⟨fun p => ?_, fun j => ?_, fun j hj => ?_⟩
  · have hsum := sum_one hi (f := held s' p) (g := held s p)
      fun j hj => held_eq (hother j hj) (by rw [htt]) p
    have hafter : held s' p i = 0 := if_neg fun hh => hgone hh.1
    have hbefore : held s p i =
        if (s.ttyTable i).ttyProcnr = p then 1 else 0 := by
      simp [held, Held, hpc]
    have hway : sent s' p + got s' p =
        (if (s.ttyTable i).ttyProcnr = p then 1 else 0) + got s p := by
      rcases heff with ⟨-, hto, -, -, hinb⟩ | ⟨hwait, -, hstill, hinb⟩
      · rw [sent_of_sending hto (by rw [hout, setOut_self]; rfl),
          got_eq hfs (by rw [hinb])]
      · have hserve := serve_of_waiting ht hwait hnot
        have hsilent := (hstill TASK_TTY (by decide)).sending.trans hidle.1
        rw [sent_of_silent hsilent,
          got_of_none (s := s) (ht.fsRcv hwait.1).2.1,
          got_of_inb (by rw [hinb, setInb_self]) (hfs.trans hserve)]
        simp [readerOf]
    have hold : b.owed p = ∑ i ∈ Finset.range NR_CONSOLES, held s p i +
      (sent s p + got s p) := h.owed p
    rw [sent_of_silent hidle.1] at hold
    show b.owed p = ∑ i ∈ Finset.range NR_CONSOLES, held s' p i +
      (sent s' p + got s' p)
    omega
  · show (if j = i then b.resumes j + 1 else b.resumes j) ≤ 1
    split
    · rename_i hj
      have hzero : b.resumes j = 0 := h.fresh j (Or.inl (by rw [hpc, hj]))
      omega
    · exact h.once j
  · show (if j = i then b.resumes j + 1 else b.resumes j) = 0
    by_cases hji : j = i
    · exact absurd (hji ▸ hj) hgone
    · rw [if_neg hji]
      exact h.fresh j ((hother j hji).mp hj)

/-- **TTY ANSWERS** FS. -/
theorem tally_reply {b : Book} (ht : Talk s) (h : Tally (s, b))
    (hrun : (s.table TASK_TTY).procState = RUNNABLE) {pid : Int}
    (hpc : s.tty = .reply pid msg) (hreader : readerOf msg = none)
    (hcall : { s with tty := .devRead 0 }.send x TASK_TTY TASK_FS msg =
      .ok s') : Tally (s', b) := by
  obtain ⟨⟨htty, hfs, htt⟩, hout, heff⟩ := send_spec hcall hrun
  change s'.tty = .devRead 0 at htty
  change s'.fs = s.fs at hfs
  change s'.ttyTable = s.ttyTable at htt
  have hidle := idle_of_runnable hrun
  refine tally_same h (fun j => by simp [Held, htty, htt, hpc])
    (fun j => by rw [htt]) fun p => ?_
  rw [sent_of_silent hidle.1,
    sent_of_other (s := s') (by rw [hout, setOut_self]; exact hreader)]
  rcases heff with ⟨-, -, -, -, hinb⟩ | ⟨hwait, -, -, hinb⟩
  · rw [got_eq hfs (by rw [hinb])]
  · rw [got_of_none (s := s) (ht.fsRcv hwait.1).2.1,
      got_of_other (s := s') (by rw [hinb, setInb_self]) hreader]

/-- TTY does not send while it serves. -/
theorem silent_of_serve (ht : Talk s) (hpc : s.tty = .serve) :
    (s.table TASK_TTY).procState.sending = false := by
  by_contra hs
  rcases (ht.ttySnd (by simpa using hs)).2 with ⟨i, hr⟩ | ⟨hdr, -⟩
  · rw [hpc] at hr
    cases hr
  · rw [hpc] at hdr
    cases hdr

/-- The RECEIVE of TTY keeps the tally. -/
theorem tally_ttyReceive {b : Book} (h : Tally (s, b)) (ht' : Talk s')
    (hrun : (s.table TASK_TTY).procState = RUNNABLE) (hpc : s.tty = .receive)
    (hcall : { s with tty := .serve }.rcv x TASK_TTY ANY = .ok s') :
    Tally (s', b) := by
  obtain ⟨⟨htty, hfs, htt⟩, -, heff⟩ := rcv_spec hcall
  change s'.tty = .serve at htty
  change s'.fs = s.fs at hfs
  change s'.ttyTable = s.ttyTable at htt
  have hinb : s'.inb TASK_FS = s.inb TASK_FS := by
    rcases heff with ⟨-, -, hinb⟩ | ⟨q, -, -, -, -, -, hinb⟩ |
      ⟨-, -, -, -, -, hinb⟩ <;>
    rw [hinb, setInb_of_ne _ _ (by decide)]
  refine tally_same h (fun j => by simp [Held, htty, htt, hpc])
    (fun j => by rw [htt]) fun p => ?_
  rw [got_eq hfs hinb, sent_of_silent (idle_of_runnable hrun).1,
    sent_of_silent (silent_of_serve ht' htty)]

/-- **FS GETS** a message. -/
theorem tally_fsServe {b : Book} {q : Int} (h : Tally (s, b))
    (hpc : s.fs = .serve) (hmsg : s.inb TASK_FS = some (q, msg)) {pc : FsPc}
    (hne : pc ≠ .serve) (e : Event) (he : ∃ disk, e = .fs x disk) :
    Tally ({ s with fs := pc }, note s b e) := by
  obtain ⟨disk, rfl⟩ := he
  have hgot : ∀ p, got { s with fs := pc } p = 0 := got_of_elsewhere hne
  have hold : ∀ p, b.owed p = ∑ i ∈ Finset.range NR_CONSOLES, held s p i +
      (sent s p + if readerOf msg = some p then 1 else 0) := by
    intro p
    rw [← got_of_inb hmsg hpc]
    exact h.owed p
  have hrest : (∀ p, (note s b (.fs x disk)).owed p =
        b.owed p - if readerOf msg = some p then 1 else 0) ∧
      (note s b (.fs x disk)).resumes = b.resumes := by
    rw [note, hpc, hmsg]
    cases msg with
    | resumeProc procNr cnt =>
        refine ⟨fun p => ?_, rfl⟩
        show (if p = procNr then b.owed p - 1 else b.owed p) = _
        by_cases hp : p = procNr
        · simp [hp, readerOf]
        · simp [hp, Ne.symm hp, readerOf]
    | _ => exact ⟨fun p => rfl, rfl⟩
  refine ⟨fun p => ?_, fun i => ?_, fun i hi => ?_⟩
  · have hbefore := hold p
    show (note s b (.fs x disk)).owed p =
      ∑ i ∈ Finset.range NR_CONSOLES, held s p i +
        (sent s p + got { s with fs := pc } p)
    rw [hrest.1, hgot]
    omega
  · show (note s b (.fs x disk)).resumes i ≤ 1
    rw [hrest.2]
    exact h.once i
  · show (note s b (.fs x disk)).resumes i = 0
    rw [hrest.2]
    exact h.fresh i hi

/-- A step of FS that neither gets a message nor waits for one of any
    process. -/
theorem tally_fsQuiet {b : Book} (h : Tally (s, b)) (hpc : s.fs ≠ .serve)
    (htty : s'.tty = s.tty) (htt : s'.ttyTable = s.ttyTable)
    (hpc' : s'.fs ≠ .serve) (hsent : ∀ p, sent s' p = sent s p) :
    Tally (s', b) := by
  refine tally_same h (fun j => by rw [Held, Held, htty, htt])
    (fun j => by rw [htt]) fun p => ?_
  rw [hsent, got_of_elsewhere hpc, got_of_elsewhere hpc']

theorem sent_of_still (hst : Still (s'.table TASK_TTY) (s.table TASK_TTY))
    (hout : s'.out TASK_TTY = s.out TASK_TTY) (p : Int) :
    sent s' p = sent s p := by
  have hsame : SendingTo s'.table TASK_TTY TASK_FS ↔
      SendingTo s.table TASK_TTY TASK_FS := by
    rw [SendingTo, SendingTo, hst.sending, hst.target]
  simp only [sent, hsame, hout]

/-- A SEND of FS. -/
theorem tally_fsSend {b : Book} (ht : Talk s) (h : Tally (s, b))
    (hrun : (s.table TASK_FS).procState = RUNNABLE) {pc : FsPc}
    (hpc : s.fs ≠ .serve) (hpc' : pc ≠ .serve)
    (hcall : { s with fs := pc }.send x TASK_FS r msg = .ok s') :
    Tally (s', b) := by
  obtain ⟨⟨htty, hfs, htt⟩, hout, heff⟩ := send_spec hcall hrun
  change s'.fs = pc at hfs
  refine tally_fsQuiet h hpc htty htt (by rw [hfs]; exact hpc') fun p => ?_
  have hout' : s'.out TASK_TTY = s.out TASK_TTY := by
    rw [hout]; exact setOut_of_ne _ msg (by decide)
  rcases heff with ⟨-, -, -, hstill, -⟩ | ⟨hwait, hidle, hstill, -⟩
  · exact sent_of_still (hstill _ (by decide)) hout' p
  · by_cases hr : TASK_TTY = r
    · subst hr
      rw [sent_of_silent hidle.1,
        sent_of_silent (silent_of_serve ht (ht.ttyRcv hwait.1).1)]
    · exact sent_of_still (hstill _ hr) hout' p

/-- **FS RECEIVES**: what TTY was SENDING is now before it. -/
theorem tally_fsRcv {b : Book} (ht : Talk s) (h : Tally (s, b))
    (hpc : s.fs ≠ .serve) {pc : FsPc}
    (hsrc : pc = .serve ∨
      ((∃ q m, pc = .heard q m) ∧ src = TASK_TTY ∧ Answering s) ∨
      src = TASK_HD ∧ ∀ q m, pc ≠ .heard q m)
    (hcall : { s with fs := pc }.rcv x TASK_FS src = .ok s') :
    Tally (s', b) := by
  obtain ⟨⟨htty, hfs, htt⟩, hout, heff⟩ := rcv_spec hcall
  change s'.tty = s.tty at htty
  change s'.fs = pc at hfs
  change s'.ttyTable = s.ttyTable at htt
  change s'.out = s.out at hout
  refine tally_same h (fun j => by rw [Held, Held, htty, htt])
    (fun j => by rw [htt]) fun p => ?_
  have hout' : s'.out TASK_TTY = s.out TASK_TTY := by rw [hout]
  rw [got_of_elsewhere hpc]
  rcases heff with ⟨-, hstill, hinb⟩ | ⟨q, hq, -, hto, hidle, hstill, hinb⟩ |
    ⟨-, -, -, -, hstill, hinb⟩
  · rw [sent_of_still (s := s) (hstill _) hout',
      got_of_other (by rw [hinb, setInb_self]) rfl]
  · have hmsg : s'.inb TASK_FS = some (q, s.out q) := by
      rw [hinb, setInb_self]
    by_cases hqt : q = TASK_TTY
    · subst hqt
      rw [sent_of_silent hidle.1]
      have hsnd : SendingTo s.table TASK_TTY TASK_FS := hto
      have hbefore : sent s p =
          if readerOf (s.out TASK_TTY) = some p then 1 else 0 := by
        simp [sent, hsnd]
      rcases hsrc with hserve | ⟨⟨q', m, hheard⟩, -, hans⟩ | ⟨hhd, -⟩
      · rw [got_of_inb hmsg (hfs.trans hserve), hbefore]
        omega
      · -- FS waits for TTY, so what TTY sends is its answer
        have hnone : readerOf (s.out TASK_TTY) = none := by
          rcases (ht.ttySnd hsnd.1).2 with ⟨i, hr⟩ | ⟨-, hnone⟩
          · rcases hans with ⟨hs, -⟩ | ⟨pid, m', hs⟩ | ⟨hs, -⟩ <;>
              rw [hr] at hs <;> cases hs
          · exact hnone
        rw [got_of_other hmsg hnone, sent_of_other hnone]
      · rcases hq with hq | hq <;> rw [hhd] at hq <;>
          exact absurd hq (by decide)
    · have hnone : readerOf (s.out q) = none := by
        by_contra hne
        exact hqt ((ht.out q).2.1 hne)
      rw [sent_of_still (s := s) (hstill _ (Ne.symm hqt)) hout',
        got_of_other hmsg hnone]
  · rw [sent_of_still (s := s) (hstill _ (by decide)) hout',
      got_of_none (by rw [hinb, setInb_self])]

/-! ## Runs -/

/-- **TTY**: each of its steps keeps the two tasks' talk and the tally. -/
theorem ttyStep_keeps {b : Book} {keys : List (BitVec 32)} (ht : Talk s)
    (h : Tally (s, b)) (hrun : (s.table TASK_TTY).procState = RUNNABLE)
    (halone : ReadsAlone (s, b) (.tty x keys))
    (hcall : ttyStep x keys s = .ok s') :
    Talk s' ∧ Tally (s', note s b (.tty x keys)) := by
  have hidle := idle_of_runnable hrun
  cases hpc : s.tty with
  | devRead i =>
      have hkeys := keysOnly_ttyDevRead s i keys
      simp only [ttyStep, hpc, pure_eq_ok] at hcall
      simp only [note, hpc]
      subst hcall
      refine ⟨talk_ttyDevRead ht hidle hpc keys, tally_ttyLocal h
        ⟨hkeys.table, hkeys.out, hkeys.inb, hkeys.fs⟩ (fun j => ?_)
        hkeys.procnr⟩
      simp [Held, hpc, hkeys.left]
  | devWrite i =>
      obtain ⟨htable, hout, hinb, hfs, hprocnr, -⟩ := ttyDevWrite_cases s hpc
      simp only [ttyStep, hpc, pure_eq_ok] at hcall
      simp only [note, hpc]
      subst hcall
      exact ⟨talk_ttyDevWrite ht hidle hpc, tally_ttyLocal h
        ⟨htable, hout, hinb, hfs⟩
        (fun j => (ttyDevWrite_reads hpc ht.left j).2.2.2) hprocnr⟩
  | resume i =>
      obtain ⟨-, hcaller, hprocnr⟩ := ht.held i (Or.inl hpc)
      simp only [ttyStep, hpc, hcaller] at hcall
      simp only [note, hpc]
      have hword : ∀ cnt, Says TASK_TTY
          (.resumeProc (s.ttyTable i).ttyProcnr cnt) := fun _ =>
        ⟨hprocnr, fun _ => rfl, trivial⟩
      refine ⟨talk_ttySend ht hrun (hword _) ?_
        (Or.inl ⟨⟨i, rfl⟩, ?_⟩) hcall, tally_resume ht h hrun hpc hcall⟩
      · rintro j (hr | ⟨hl, -⟩)
        · cases hr
        · exact Or.inr ⟨hl, by simp [hpc]⟩
      · exact not_waits ht hidle (by simp [hpc]) (by simp [hpc])
  | resumed i =>
      simp only [ttyStep, hpc, pure_eq_ok] at hcall
      simp only [note, hpc]
      subst hcall
      exact ⟨talk_ttyResumed ht hidle hpc, tally_ttyLocal h
        ⟨rfl, rfl, rfl, rfl⟩
        (fun j => (ttyResumed_reads hpc ht.left j rfl).2.2.2)
        (fun j => (ttyResumed_reads hpc ht.left j rfl).1)⟩
  | receive =>
      simp only [ttyStep, hpc] at hcall
      simp only [note, hpc]
      have ht' := talk_ttyReceive ht hrun hpc hcall
      exact ⟨ht', tally_ttyReceive h ht' hrun hpc hcall⟩
  | serve =>
      -- the only step that takes a read up: the line has no reader yet
      have halone' := fun q minor procNr cnt =>
        halone q minor procNr cnt hpc
      simp only [ttyStep, hpc] at hcall
      refine ⟨talk_ttyServe ht hidle hpc
        (fun q minor procNr cnt hm => (halone' q minor procNr cnt hm).1)
        hcall, ?_⟩
      obtain ⟨q, msg, hmsg, ⟨minor, procNr, cnt, rfl, hs'⟩ |
        ⟨-, hnot, cnt, rfl⟩ | ⟨hdev, rfl⟩⟩ := ttyServe_cases hcall
      · simp only [note, hpc, hmsg]
        obtain ⟨hcnt, hfree⟩ := halone' q minor procNr cnt hmsg
        exact tally_suspend h hpc (ht.inb _ _ _ hmsg).2.2 hcnt hfree hs'
      · have hnote : note s b (.tty x keys) = b := by
          rw [note, hpc, hmsg]
          cases msg with
          | devRead i p c => exact absurd rfl (hnot i p c)
          | _ => rfl
        rw [hnote]
        exact tally_ttyLocal h ⟨rfl, rfl, rfl, rfl⟩
          (fun j => by simp [Held, hpc]) fun _ => rfl
      · have hnote : note s b (.tty x keys) = b := by
          rw [note, hpc, hmsg]
          cases msg with
          | devRead i p c => cases hdev
          | _ => rfl
        rw [hnote]
        exact tally_ttyLocal h ⟨rfl, rfl, rfl, rfl⟩
          (fun j => by simp [Held, hpc]) fun _ => rfl
  | reply pid msg =>
      obtain ⟨rfl, hword, hreader⟩ := ht.answer pid msg hpc
      simp only [ttyStep, hpc] at hcall
      simp only [note, hpc]
      refine ⟨talk_ttySend ht hrun hword ?_ (Or.inr ⟨rfl, hreader⟩) hcall,
        tally_reply ht h hrun hpc hreader hcall⟩
      rintro j (hr | ⟨hl, -⟩)
      · cases hr
      · exact Or.inr ⟨hl, by simp [hpc]⟩

/-- A step of FS outside its `switch` writes nothing into the book. -/
theorem note_fs {b : Book} {disk : Bool} (hpc : s.fs ≠ .serve) :
    note s b (.fs x disk) = b := by
  rw [note]
  split
  · contradiction
  · rfl

/-- **FS**: the same. -/
theorem fsStep_keeps {b : Book} {disk : Bool} (ht : Talk s)
    (h : Tally (s, b)) (hrun : (s.table TASK_FS).procState = RUNNABLE)
    (hcall : fsStep x disk s = .ok s') :
    Talk s' ∧ Tally (s', note s b (.fs x disk)) := by
  have hidle := idle_of_runnable hrun
  have hclient := ht.client
  have hfsword : ∀ cnt, Says TASK_FS (.syscallRet cnt) := fun _ =>
    ⟨trivial, fun hne => absurd rfl hne, trivial⟩
  -- a step of FS alone leaves what the two tasks owe each other
  have hlocal : ∀ pc : FsPc, (∀ q, pc.client = some q → q ≠ TASK_TTY) →
      (∀ q m, pc = .callTty q m → Says TASK_FS m ∧ m.isDev = true) →
      (∀ q m, pc ≠ .hearTty q m) → s.fs ≠ .serve → pc ≠ .serve →
      Talk { s with fs := pc } ∧ Tally ({ s with fs := pc }, b) :=
    fun pc hcl hdr hno hne hne' => ⟨talk_fsLocal ht hidle pc hcl hdr hno,
      tally_fsQuiet h hne rfl rfl hne' fun _ => rfl⟩
  cases hpc : s.fs with
  | receive =>
      simp only [fsStep, hpc] at hcall
      rw [note_fs (by simp [hpc])]
      exact ⟨talk_fsRcv ht hrun (by simp [FsPc.client]) (by simp) (Or.inl rfl)
        hcall, tally_fsRcv ht h (by simp [hpc]) (Or.inl rfl) hcall⟩
  | serve =>
      simp only [fsStep, hpc] at hcall
      obtain ⟨q, m, hmsg, pc, rfl, hcl, hne, hhear, hdr⟩ :=
        fsServe_cases ht hcall
      exact ⟨talk_fsLocal ht hidle pc
        (fun q' hq' heq => hcl (by rw [hq', heq])) hdr hhear,
        tally_fsServe h hpc hmsg hne _ ⟨disk, rfl⟩⟩
  | work src dev =>
      have hsrc := hclient src (by rw [hpc]; rfl)
      simp only [fsStep, hpc] at hcall
      rw [note_fs (by simp [hpc])]
      have hown : ∀ pc : FsPc, pc.client = some src →
          ∀ q, pc.client = some q → q ≠ TASK_TTY := by
        intro pc hc q hq
        rw [hc] at hq
        cases hq
        exact hsrc
      split at hcall
      · obtain rfl := pure_eq_ok.mp hcall
        exact hlocal _ (hown _ rfl) (by simp) (by simp) (by simp [hpc])
          (by simp)
      · split at hcall
        · obtain rfl := pure_eq_ok.mp hcall
          refine hlocal _ (hown _ rfl) (fun q m hc => ?_) (by simp)
            (by simp [hpc]) (by simp)
          obtain ⟨rfl, rfl⟩ := FsPc.callTty.inj hc
          exact ⟨⟨rfl, fun hne => absurd rfl hne, trivial⟩, rfl⟩
        · obtain rfl := pure_eq_ok.mp hcall
          exact hlocal _ (hown _ rfl) (by simp) (by simp) (by simp [hpc])
            (by simp)
  | callHd src dev =>
      have hsrc : ∀ q, (FsPc.hearHd src dev).client = some q → q ≠ TASK_TTY :=
        fun q hq => hclient q (by rw [hpc]; exact hq)
      simp only [fsStep, hpc] at hcall
      rw [note_fs (by simp [hpc])]
      have hword : Says TASK_FS .other :=
        ⟨show TASK_FS ≠ TASK_TTY by decide, fun hne => absurd rfl hne, trivial⟩
      exact ⟨talk_fsSend ht hrun hword (by decide) hsrc ⟨by simp, by simp, by simp⟩ hcall,
        tally_fsSend ht h hrun (by simp [hpc]) (by simp) hcall⟩
  | hearHd src dev =>
      have hsrc : ∀ q, (FsPc.work src dev).client = some q → q ≠ TASK_TTY :=
        fun q hq => hclient q (by rw [hpc]; exact hq)
      simp only [fsStep, hpc] at hcall
      rw [note_fs (by simp [hpc])]
      exact ⟨talk_fsRcv ht hrun hsrc (by simp)
        (Or.inr (Or.inr ⟨rfl, by simp⟩)) hcall,
        tally_fsRcv ht h (by simp [hpc]) (Or.inr (Or.inr ⟨rfl, by simp⟩))
          hcall⟩
  | callTty src msg =>
      simp only [fsStep, hpc] at hcall
      rw [note_fs (by simp [hpc])]
      exact ⟨talk_fsCallTty ht hrun hpc hcall,
        tally_fsSend ht h hrun (by simp [hpc]) (by simp) hcall⟩
  | hearTty src msg =>
      have hsrc : ∀ q, (FsPc.heard src msg).client = some q → q ≠ TASK_TTY :=
        fun q hq => hclient q (by rw [hpc]; exact hq)
      -- FS is hearing TTY, so TTY is going to answer
      have hans := ht.waits ⟨hidle.1, Or.inl ⟨src, msg, hpc⟩⟩
      simp only [fsStep, hpc] at hcall
      rw [note_fs (by simp [hpc])]
      exact ⟨talk_fsRcv ht hrun hsrc (by simp)
        (Or.inr (Or.inl ⟨⟨src, msg, rfl⟩, rfl, hans⟩)) hcall,
        tally_fsRcv ht h (by simp [hpc])
          (Or.inr (Or.inl ⟨⟨src, msg, rfl⟩, rfl, hans⟩)) hcall⟩
  | heard src msg =>
      have hsrc := hclient src (by rw [hpc]; rfl)
      simp only [fsStep, hpc] at hcall
      rw [note_fs (by simp [hpc])]
      obtain ⟨pc, rfl, hpc'⟩ := fsHeard_cases hcall
      refine hlocal pc ?_ ?_ ?_ (by simp [hpc]) ?_ <;>
        rcases hpc' with rfl | rfl <;> simp [FsPc.client, hsrc]
  | reply src =>
      have hsrc := hclient src (by rw [hpc]; rfl)
      simp only [fsStep, hpc] at hcall
      rw [note_fs (by simp [hpc])]
      exact ⟨talk_fsSend ht hrun (hfsword 0) hsrc (by simp [FsPc.client])
        ⟨by simp, by simp, by simp⟩ hcall,
        tally_fsSend ht h hrun (by simp [hpc]) (by simp) hcall⟩

/-- **STEP**: every step whose reads are alone. -/
theorem keeps_step {a a' : Booked} {e : Event} (h : Talk a.1 ∧ Tally a)
    (halone : ReadsAlone a e) (hstep : StepBooked a e a') :
    Talk a'.1 ∧ Tally a' := by
  obtain ⟨s, b⟩ := a
  obtain ⟨s', b'⟩ := a'
  obtain ⟨⟨henabled, hcall⟩, hb⟩ := hstep
  obtain ⟨ht, h⟩ := h
  change exec s e = .ok s' at hcall
  change b' = note s b e at hb
  subst hb
  cases e with
  | send x q r msg =>
      obtain ⟨hfs, htty, -, -, hmsg, hrun⟩ := henabled
      obtain ⟨ha, ht'⟩ := aside_send ht hfs htty hmsg hrun hcall
      exact ⟨ht', tally_aside ht ha h⟩
  | rcv x q src =>
      obtain ⟨hfs, htty, -⟩ := henabled
      obtain ⟨ha, ht'⟩ := aside_rcv ht hfs htty hcall
      exact ⟨ht', tally_aside ht ha h⟩
  | hwInt p =>
      simp only [exec, bind_eq_ok, pure_eq_ok] at hcall
      obtain ⟨⟨T', w⟩, hcall, rfl⟩ := hcall
      obtain ⟨ha, ht'⟩ := aside_hwInt ht henabled hcall
      exact ⟨ht', tally_aside ht ha h⟩
  | tty x keys => exact ttyStep_keeps ht h henabled halone hcall
  | fs x disk => exact fsStep_keeps ht h henabled hcall

/-- At boot nobody reads, and neither task waits for a message. -/
theorem boot_idle (h : Boot s) :
    Idle (s.table TASK_FS) ∧ Idle (s.table TASK_TTY) ∧ ∀ i, ¬ Held s i := by
  obtain ⟨kTop, outside, htab⟩ := h.table
  have hidle : ∀ q, InTable q → Idle (s.table q) := by
    intro q hq
    rw [htab]
    rcases (initProcess_idle kTop outside hq).1 with hst | hst <;>
      rw [Idle, hst] <;> exact ⟨rfl, rfl⟩
  refine ⟨hidle TASK_FS (by decide), hidle TASK_TTY (by decide), fun i hi => ?_⟩
  have hl : (s.ttyTable i).ttyLeftCnt = 0 := h.reads i
  have hpc : s.tty = .devRead 0 := h.tty
  simp [Held, hl, hpc] at hi

/-- At boot nobody has said anything. -/
theorem talk_boot (h : Boot s) : Talk s := by
  obtain ⟨hfs, htty, hnone⟩ := boot_idle h
  constructor
  case out =>
    intro q
    rw [h.out q]
    exact ⟨trivial, fun hne => absurd rfl hne, trivial⟩
  case inb =>
    intro r q msg hm
    rw [h.inb r] at hm
    cases hm
  case client =>
    intro q hq
    rw [h.fs] at hq
    cases hq
  case driver =>
    intro q msg hq
    rw [h.fs] at hq
    cases hq
  case left => exact fun i => (h.reads i).symm.le
  case held => exact fun i hi => absurd hi (hnone i)
  case answer =>
    intro pid msg hr
    rw [h.tty] at hr
    cases hr
  case ttyRcv => exact fun hr => absurd (hr.symm.trans htty.2) (by decide)
  case ttySnd => exact fun hs => absurd (hs.symm.trans htty.1) (by decide)
  case fsRcv => exact fun hr => absurd (hr.symm.trans hfs.2) (by decide)
  case hear =>
    intro q m hhear
    rw [h.fs] at hhear
    cases hhear
  case call => exact fun hs => absurd (hs.1.symm.trans hfs.1) (by decide)
  case waits =>
    rintro ⟨-, ⟨q, m, hhear⟩ | ⟨⟨q, m, hheard⟩, -⟩⟩
    · rw [h.fs] at hhear
      cases hhear
    · rw [h.fs] at hheard
      cases hheard
  case apart => exact fun hb => absurd (hb.1.1.symm.trans hfs.1) (by decide)

/-- At boot the tally is even. -/
theorem keeps_boot {a : Booked} (h : BootBooked a) :
    Talk a.1 ∧ Tally a := by
  obtain ⟨s, b⟩ := a
  obtain ⟨hboot, howed, hresumes⟩ := h
  obtain ⟨-, htty, hnone⟩ := boot_idle hboot
  refine ⟨talk_boot hboot, ?_⟩
  constructor
  case owed =>
    intro p
    have hsum : ∑ i ∈ Finset.range NR_CONSOLES, held s p i = 0 :=
      Finset.sum_eq_zero fun i _ => if_neg fun hh => hnone i hh.1
    show b.owed p = ∑ i ∈ Finset.range NR_CONSOLES, held s p i +
      (sent s p + got s p)
    rw [hsum, sent_of_silent htty.1, got_of_none (hboot.inb _)]
    exact howed p
  case once =>
    intro i
    show b.resumes i ≤ 1
    rw [show b.resumes i = 0 from hresumes i]
    exact Nat.zero_le 1
  case fresh => exact fun i hi => absurd hi (hnone i)

/-- Talk and tally in every state of a run. -/
theorem keeps_reach {a : Booked}
    (h : Reach BootBooked StepBooked ReadsAlone a) : Talk a.1 ∧ Tally a :=
  reach_invariant (fun a => Talk a.1 ∧ Tally a) (fun _ h => keeps_boot h)
    (fun _ _ _ h halone hstep => keeps_step h halone hstep) h

/-- A read that is owed an answer is held by a tty, or its `RESUME_PROC` is on
    its way. -/
theorem remembered_of_tally {a : Booked} (ht : Talk a.1) (h : Tally a) :
    Remembered a := by
  intro p hp
  by_contra hno
  have hheld : ∑ i ∈ Finset.range NR_CONSOLES, held a.1 p i = 0 := by
    refine Finset.sum_eq_zero fun i hi => if_neg ?_
    rintro ⟨hpc | ⟨hl, -⟩, hprocnr⟩
    · exact hno (Or.inr (Or.inl ⟨i, hpc, hprocnr, (ht.held i (Or.inl hpc)).2.1⟩))
    · exact hno (Or.inl ⟨i, Finset.mem_range.mp hi, hprocnr, hl⟩)
  have hsent : sent a.1 p = 0 :=
    if_neg fun hs => hno (Or.inr (Or.inr (Or.inl hs)))
  have hgot : got a.1 p = 0 := by
    refine if_neg fun hs => hno (Or.inr (Or.inr (Or.inr ⟨hs.1, ?_⟩)))
    obtain ⟨⟨q, msg⟩, hm, hreader⟩ := Option.bind_eq_some_iff.mp hs.2
    exact ⟨q, msg, hm, hreader⟩
  have hsum := h.owed p
  omega

/-- **NO READER FORGOTTEN**: in every run whose reads ask for something and
    find their tty without a reader, every suspended reader is on record or its
    `RESUME_PROC` on the way, and no read is resumed twice. -/
theorem no_reader_forgotten {a : Booked}
    (h : Reach BootBooked StepBooked ReadsAlone a) :
    Remembered a ∧ ResumedOnce a := by
  obtain ⟨ht, htally⟩ := keeps_reach h
  refine ⟨remembered_of_tally ht htally, htally.once, ?_⟩
  intro q msg p hserve hmsg hreader
  have hgot : got a.1 p = 1 := by
    rw [got_of_inb hmsg hserve, if_pos hreader]
  have hsum := htally.owed p
  omega

/-! ## One reader and two -/

/-- A schedule, with a test of every step. -/
def runBooked (test : Booked → Event → Bool) :
    List Event → Booked → Except Halt Booked
  | [], a => .ok a
  | e :: es, a =>
      if Enabled a.1 e ∧ test a e = true then
        exec a.1 e >>= fun s => runBooked test es (s, note a.1 a.2 e)
      else .error .assertionFailure

/-- A run that is computed is a run. -/
theorem reach_runBooked {guard : Booked → Event → Prop}
    {test : Booked → Event → Bool}
    (htest : ∀ a e, test a e = true → guard a e) :
    ∀ {es : List Event} {a a' : Booked},
      Reach BootBooked StepBooked guard a → runBooked test es a = .ok a' →
      Reach BootBooked StepBooked guard a' := by
  intro es
  induction es with
  | nil =>
      intro a a' h hrun
      cases hrun
      exact h
  | cons e es ih =>
      intro a a' h hrun
      rw [runBooked] at hrun
      split at hrun
      · rename_i hen
        obtain ⟨s, hstep, hrun⟩ := bind_eq_ok.mp hrun
        exact ih (.next h (htest a e hen.2) ⟨⟨hen.1, hstep⟩, rfl⟩) hrun
      · cases hrun

/-- The boot with an empty book. -/
def bootBooked : Booked := (bootSys, ⟨fun _ => 0, fun _ => 0⟩)

theorem bootBooked_boot : BootBooked bootBooked :=
  ⟨bootSys_boot, fun _ => rfl, fun _ => rfl⟩

/-- What such a run ends in is reached. -/
theorem exists_of_runBooked {guard : Booked → Event → Prop}
    {test : Booked → Event → Bool}
    (htest : ∀ a e, test a e = true → guard a e) (es : List Event)
    (last : Booked → Bool)
    (h : (match runBooked test es bootBooked with
      | .ok a => last a
      | .error _ => false) = true) :
    ∃ a, Reach BootBooked StepBooked guard a ∧ last a = true := by
  cases hrun : runBooked test es bootBooked with
  | ok a =>
      rw [hrun] at h
      exact ⟨a, reach_runBooked htest (.start bootBooked_boot) hrun, h⟩
  | error e =>
      rw [hrun] at h
      cases h

/-- No message asks for a negative number of characters. -/
def nonneg (_ : Booked) : Event → Bool
  | .send _ _ _ msg => decide (0 ≤ msg.cnt)
  | _ => true

theorem cntNonneg_of_nonneg (a : Booked) (e : Event) (h : nonneg a e = true) :
    CntNonneg a e := by
  cases e with
  | send x q r msg => exact of_decide_eq_true (p := 0 ≤ msg.cnt) h
  | _ => trivial

/-- A read is served only when no other reader of the terminal waits. -/
def alone (a : Booked) : Event → Bool
  | .tty _ _ =>
      match a.1.tty, a.1.inb TASK_TTY with
      | .serve, some (_, .devRead minor _ cnt) =>
          decide (0 < cnt ∧ (a.1.ttyTable minor).ttyLeftCnt = 0)
      | _, _ => true
  | _ => true

theorem readsAlone_of_alone (a : Booked) (e : Event) (h : alone a e = true) :
    ReadsAlone a e := by
  cases e with
  | tty x keys =>
      intro q minor procNr cnt hpc hmsg
      rw [alone, hpc, hmsg] at h
      exact of_decide_eq_true h
  | _ => trivial

/-- TTY and FS wait; INIT reads from tty 1, and FS leaves it unanswered. -/
def readOnce : List Event :=
  let tty := Event.tty at1 []
  let fs := Event.fs at1 false
  [tty, tty, tty, tty, tty, tty, tty, fs,
    .send at1 INIT TASK_FS (.fsReadWrite false (some 1) 1), fs, fs, fs,
    tty, tty, fs, fs]

/-- Process 6 reads from the same tty. -/
def readAgain : List Event :=
  let tty := Event.tty at1 []
  let fs := Event.fs at1 false
  [.send at1 6 TASK_FS (.fsReadWrite false (some 1) 1), fs, fs,
    tty, tty, tty, tty, tty, tty, tty, fs, tty]

/-- INIT is owed an answer, and tty 1 has it on record. -/
theorem no_reader_forgotten_init :
    ∃ a : Booked, a.2.owed INIT = 1 ∧ Remembered a ∧ ResumedOnce a := by
  obtain ⟨a, hreach, hlast⟩ := exists_of_runBooked readsAlone_of_alone readOnce
    (fun a => decide (a.2.owed INIT = 1)) (by decide +kernel)
  exact ⟨a, of_decide_eq_true hlast, no_reader_forgotten hreach⟩

/-- The second read of tty 1 overwrites the record of the first: INIT is owed
    an answer that never comes. -/
theorem reader_forgotten :
    ∃ a, Reach BootBooked StepBooked CntNonneg a ∧ ¬ Remembered a := by
  obtain ⟨a, hreach, hlast⟩ := exists_of_runBooked cntNonneg_of_nonneg
    (readOnce ++ readAgain)
    (fun a => decide (0 < a.2.owed INIT ∧
      (∀ i, i < NR_CONSOLES → (a.1.ttyTable i).ttyProcnr ≠ INIT) ∧
      a.1.tty = .reply TASK_FS (.suspendProc 1) ∧
      (a.1.table TASK_TTY).procState.sending = false ∧
      a.1.inb TASK_FS = none)) (by decide +kernel)
  obtain ⟨howed, hrecord, hpc, hsnd, hinb⟩ := of_decide_eq_true hlast
  refine ⟨a, hreach, fun hrem => ?_⟩
  rcases hrem INIT howed with ⟨i, hi, hp, -⟩ | ⟨i, hr, -⟩ | ⟨⟨hs, -⟩, -⟩ |
    ⟨-, q, msg, hm, -⟩
  · exact hrecord i hi hp
  · rw [hpc] at hr
    cases hr
  · exact absurd (hs.symm.trans hsnd) (by decide)
  · rw [hinb] at hm
    cases hm

end KosTtyReaders
