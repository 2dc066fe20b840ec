import Kos.IpcProofs

/-! # Interrupts inside `kernel_msg_rcv`

    `sys_call` enables interrupts before it calls the handler, so an interrupt
    can arrive while `kernel_msg_rcv` runs.  Here the function is cut at the
    two places that matter: after its test of `has_int_msg`, and after
    `block`, before the closing assertions.  Between the cuts only
    `hw_int_notification` runs; a process that is not in the kernel waits
    until the call is over.

    * the pieces, run in one go, are `kernel_msg_rcv` (`kernelMsgRcv_pieces`);
    * no interrupt is slept through when none arrives for a process that has
      tested `has_int_msg` and is about to block (`no_interrupt_slept`);
    * without that condition one is (`interrupt_slept`), and then the closing
      assertion stops the machine (`check_of_sleeps`). -/

namespace KosInterruptWindow

open FlatMemory KosKernel KosIpc GuardedRun

/-! ## The pieces of `kernel_msg_rcv` -/

/-- The test of `has_int_msg` at the top, with what follows when it holds. -/
def rcvTest (T : Table) (receiver pidSender : Int) (m : Addr) :
    Except Halt (Option (Table × List Write)) := do
  assert (receiver ≠ pidSender)
  if (T receiver).hasIntMsg = true ∧
      (pidSender = ANY ∨ pidSender = INTERRUPT) then do
    assert (m ≠ 0)
    let dst ← procVa2la T receiver m
    let T := T.upd receiver fun p => { p with hasIntMsg := false }
    assertMultiple T 0 receiver 0 4
    pure (some (T, [.copyIntMsg receiver dst]))
  else pure none

/-- The rest, up to and with `block`; the flag says that the receiver has
    blocked. -/
def rcvRest (fuel : Nat) (T : Table) (receiver pidSender : Int) (m : Addr) :
    Except Halt (Table × List Write × Bool) := do
  let choice ← chooseSender fuel T receiver pidSender
  match choice with
  | some (sender, prev) => do
      let T ← unlinkSender T receiver sender prev
      assertMultiple T sender 0 m 7
      let dst ← procVa2la T receiver m
      let src ← procVa2la T sender (T sender).pendingMsg
      let T := T.upd sender released
      unblock T sender
      pure (T, [.copyMsg receiver sender dst src], false)
  | none => do
      let T := T.upd receiver (blockedReceiving pidSender m)
      block T receiver
      pure (T, [], true)

/-- The closing assertions of a receiver that has blocked. -/
def rcvCheck (T : Table) (receiver : Int) : Except Halt Unit :=
  assertMultiple T 0 receiver 0 8

/-- **The pieces, one after the other, are `kernel_msg_rcv`.** -/
theorem kernelMsgRcv_pieces (fuel : Nat) (T : Table) (r src : Int) (m : Addr) :
    kernelMsgRcv fuel T r src m = (do
      match ← rcvTest T r src m with
      | some done => pure done
      | none => do
          let (T, w, blocked) ← rcvRest fuel T r src m
          if blocked then rcvCheck T r
          pure (T, w)) := by
  unfold kernelMsgRcv rcvTest rcvRest
  by_cases hne : r ≠ src
  · by_cases hint : (T r).hasIntMsg = true ∧ (src = ANY ∨ src = INTERRUPT)
    · simp only [if_pos hint, bind_assoc, pure_bind]
    · simp only [if_neg hint, bind_assoc, pure_bind]
      congr 1
      funext _
      congr 1
      funext choice
      cases choice with
      | none => simp [rcvCheck]
      | some c => simp
  · have hfail : assert (r ≠ src) = .error .assertionFailure := if_neg hne
    simp only [hfail]
    rfl

/-! ## States and steps -/

/-- Where the kernel is. -/
inductive Pc where
  | idle
  /-- a receiver has tested `has_int_msg` and found nothing -/
  | tested (receiver pidSender : Int) (m : Addr)
  /-- a receiver has blocked and the closing assertions are to come -/
  | blocked (receiver : Int)
  deriving DecidableEq, Repr

/-- The table, and where the caller is in its RECEIVE. -/
structure State where
  table : Table
  pc : Pc

/-- What may happen next. -/
inductive Event where
  | send (caller pidReceiver : Int) (m : Addr)
  | test (caller pidSender : Int) (m : Addr)
  | rest
  | check
  | hwInt (taskNr : Int)
  | outside
  deriving DecidableEq, Repr

/-- One piece of a call, or an interrupt, that halts nothing. -/
inductive Step : State → Event → State → Prop where
  | send {fuel : Nat} {T T' : Table} {s r : Int} {m : Addr} {w : List Write}
      (hs : InTable s) (hrun : (T s).procState = RUNNABLE) (hr : InTable r)
      (hcall : kernelMsgSend fuel T s r m = .ok (T', w)) :
      Step ⟨T, .idle⟩ (.send s r m) ⟨T', .idle⟩
  | take {T T' : Table} {r src : Int} {m : Addr} {w : List Write}
      (hr : InTable r) (hrun : (T r).procState = RUNNABLE)
      (hsrc : IsSource src)
      (hcall : rcvTest T r src m = .ok (some (T', w))) :
      Step ⟨T, .idle⟩ (.test r src m) ⟨T', .idle⟩
  | test {T : Table} {r src : Int} {m : Addr}
      (hr : InTable r) (hrun : (T r).procState = RUNNABLE)
      (hsrc : IsSource src) (hcall : rcvTest T r src m = .ok none) :
      Step ⟨T, .idle⟩ (.test r src m) ⟨T, .tested r src m⟩
  | rest {fuel : Nat} {T T' : Table} {r src : Int} {m : Addr}
      {w : List Write} {b : Bool}
      (hcall : rcvRest fuel T r src m = .ok (T', w, b)) :
      Step ⟨T, .tested r src m⟩ .rest
        ⟨T', if b then .blocked r else .idle⟩
  | check {T : Table} {r : Int} {u : Unit}
      (hcall : rcvCheck T r = .ok u) : Step ⟨T, .blocked r⟩ .check ⟨T, .idle⟩
  | hwInt {T T' : Table} {pc : Pc} {p : Int} {w : List Write} (hp : InTable p)
      (hcall : hwIntNotification T p = .ok (T', w)) :
      Step ⟨T, pc⟩ (.hwInt p) ⟨T', pc⟩
  | outside {T T' : Table} (hin : ∀ p, InTable p → T' p = T p) :
      Step ⟨T, .idle⟩ .outside ⟨T', .idle⟩

/-- The kernel after `init_process`. -/
def Boot (s : State) : Prop := Booted s.table ∧ s.pc = .idle

/-- The process waits for an interrupt that is there. -/
def Sleeps (T : Table) (p : Int) : Prop :=
  IsWaitingForInt T p ∧ (T p).hasIntMsg = true

/-- No sender that `kernel_msg_rcv` would take a message from. -/
def NoSender (T : Table) (r src : Int) : Prop :=
  if src = ANY then (T r).qPendingProc = none
  else ¬ ((T src).procState.sending = true ∧ (T src).pidSendingto = r)

/-- The kernel has left the test of `p` behind and is about to block it where
    an interrupt would wake it. -/
def AboutToBlock (s : State) (p : Int) : Prop :=
  ∃ src m, s.pc = .tested p src m ∧ (src = ANY ∨ src = INTERRUPT) ∧
    NoSender s.table p src

/-- The condition on a step: an interrupt does not come in the window. -/
def Timely (s : State) : Event → Prop
  | .hwInt p => ¬ AboutToBlock s p
  | _ => True

/-! ## One step -/

/-- What decides whether a process sleeps through an interrupt. -/
def wait (x : Proc) : Bool × Int × Bool :=
  (x.procState.receiving, x.pidRecvingfrom, x.hasIntMsg)

theorem sleeps_congr {T T' : Table} {p : Int} (h : wait (T' p) = wait (T p)) :
    Sleeps T' p ↔ Sleeps T p := by
  simp only [wait, Prod.mk.injEq] at h
  simp only [Sleeps, IsWaitingForInt, h]

@[simp] theorem wait_setLink (T : Table) (x p : Int) (q : Option Int) :
    wait (setLink T x q p) = wait (T p) := by
  rw [setLink_frame]
  rfl

theorem not_sleeps_of_not_receiving {T : Table} {p : Int}
    (h : (T p).procState.receiving = false) : ¬ Sleeps T p := by
  rintro ⟨⟨hrec, -⟩, -⟩
  rw [h] at hrec
  cases hrec

/-- A change of one entry puts nobody else to sleep. -/
theorem not_sleeps_upd {T : Table} {p : Int} {f : Proc → Proc}
    (h : ∀ q, InTable q → ¬ Sleeps T q) (hp : ¬ Sleeps (T.upd p f) p) :
    ∀ q, InTable q → ¬ Sleeps (T.upd p f) q := by
  intro q hq
  by_cases hqp : q = p
  · rw [hqp]; exact hp
  · rw [sleeps_congr (by rw [upd_of_ne T f hqp])]
    exact h q hq

theorem not_sleeps_setLink {T : Table} {x : Int} {l : Option Int}
    (h : ∀ q, InTable q → ¬ Sleeps T q) :
    ∀ q, InTable q → ¬ Sleeps (setLink T x l) q := by
  intro q hq
  rw [sleeps_congr (wait_setLink T x q l)]
  exact h q hq

/-- A send puts nobody to sleep. -/
theorem not_sleeps_send {fuel : Nat} {T T' : Table} {s r : Int} {m : Addr}
    {w : List Write} (h : ∀ q, InTable q → ¬ Sleeps T q)
    (hrun : (T s).procState = RUNNABLE)
    (hcall : kernelMsgSend fuel T s r m = .ok (T', w)) :
    ∀ q, InTable q → ¬ Sleeps T' q := by
  obtain ⟨-, -, hdir | hblk⟩ := kernelMsgSend_cases hcall
  · rw [hdir.table]
    exact not_sleeps_upd h (not_sleeps_of_not_receiving (by rw [upd_self]; rfl))
  · obtain ⟨t, l, -, hT'⟩ := hblk.table
    rw [hT']
    refine not_sleeps_setLink (not_sleeps_setLink (not_sleeps_upd h ?_))
    refine not_sleeps_of_not_receiving ?_
    rw [upd_self, blockedSending, hrun]
    rfl

/-- The first piece either takes an interrupt or leaves the table alone. -/
theorem rcvTest_cases {T : Table} {r src : Int} {m : Addr}
    {res : Option (Table × List Write)}
    (h : rcvTest T r src m = .ok res) :
    (∃ w, res = some (T.upd r fun p => { p with hasIntMsg := false }, w)) ∨
      (res = none ∧
        ¬ ((T r).hasIntMsg = true ∧ (src = ANY ∨ src = INTERRUPT))) := by
  unfold rcvTest at h
  simp only [bind_eq_ok, assert_eq_ok, exists_const] at h
  obtain ⟨-, h⟩ := h
  by_cases hint : (T r).hasIntMsg = true ∧ (src = ANY ∨ src = INTERRUPT)
  · simp only [if_pos hint, bind_eq_ok, assert_eq_ok, exists_const, pure_eq_ok,
      assertMultiple] at h
    obtain ⟨-, dst, -, -, rfl⟩ := h
    exact Or.inl ⟨_, rfl⟩
  · rw [if_neg hint, pure_eq_ok] at h
    exact Or.inr ⟨h.symm, hint⟩

/-- What the second piece has done: a sender's message was taken, or the
    receiver blocked because there was no sender. -/
theorem rcvRest_cases {fuel : Nat} {T T' : Table} {r src : Int} {m : Addr}
    {w : List Write} {b : Bool}
    (h : rcvRest fuel T r src m = .ok (T', w, b)) :
    (b = false ∧ ∃ s x l, (T s).procState = SENDING ∧
        T' = (setLink (setLink T x l) s none).upd s released) ∨
      (b = true ∧ NoSender T r src ∧
        T' = T.upd r (blockedReceiving src m)) := by
  unfold rcvRest at h
  simp only [bind_eq_ok] at h
  obtain ⟨choice, hc, h⟩ := h
  cases choice with
  | some c =>
      obtain ⟨s, prev⟩ := c
      simp only [bind_eq_ok, assertMultiple, assert_eq_ok, exists_const,
        unblock, pure_eq_ok, Prod.mk.injEq] at h
      obtain ⟨T₁, hT₁, -, -, -, -, -, -, rfl, -, rfl⟩ := h
      obtain ⟨x, -, rfl⟩ := unlinkSender_eq_ok hT₁
      obtain ⟨-, hs, -, -⟩ := chooseSender_eq_ok hc
      exact Or.inl ⟨rfl, s, x, _, hs, rfl⟩
  | none =>
      simp only [bind_eq_ok, block, assert_eq_ok, exists_const, pure_eq_ok,
        Prod.mk.injEq] at h
      obtain ⟨-, rfl, -, rfl⟩ := h
      obtain ⟨hany, hsrc⟩ := chooseSender_eq_none hc
      refine Or.inr ⟨rfl, ?_, rfl⟩
      unfold NoSender
      by_cases ha : src = ANY
      · rw [if_pos ha]; exact hany ha
      · rw [if_neg ha]; exact hsrc ha

/-! ## The invariant -/

/-- Nobody sleeps, and a process in the window that has an interrupt waiting
    will find a sender and not block. -/
structure Inv (T : Table) (pc : Pc) : Prop where
  awake : ∀ p, InTable p → ¬ Sleeps T p
  window : ∀ p src m, pc = .tested p src m →
    (T p).procState = RUNNABLE ∧
      ((T p).hasIntMsg = true → (src = ANY ∨ src = INTERRUPT) →
        ¬ NoSender T p src)

/-- An interrupt changes neither a queue nor who sends to whom. -/
theorem noSender_hwInt {T T' : Table} {p r src : Int} {w : List Write}
    (hcall : hwIntNotification T p = .ok (T', w)) :
    NoSender T' r src ↔ NoSender T r src := by
  obtain ⟨f, rfl, hf⟩ : ∃ f, T' = T.upd p f ∧ ∀ x : Proc,
      (f x).qPendingProc = x.qPendingProc ∧
        (f x).procState.sending = x.procState.sending ∧
        (f x).pidSendingto = x.pidSendingto := by
    rcases hwIntNotification_cases hcall with ⟨-, -, h, -⟩ | ⟨-, h, -⟩
    · exact ⟨_, h, fun x => ⟨rfl, rfl, rfl⟩⟩
    · exact ⟨_, h, fun x => ⟨rfl, rfl, rfl⟩⟩
  have hsame : ∀ q, (T.upd p f q).qPendingProc = (T q).qPendingProc ∧
      (T.upd p f q).procState.sending = (T q).procState.sending ∧
      (T.upd p f q).pidSendingto = (T q).pidSendingto := by
    intro q
    by_cases hq : q = p
    · rw [hq, upd_self]; exact hf (T p)
    · rw [upd_of_ne T f hq]; exact ⟨rfl, rfl, rfl⟩
  unfold NoSender
  rw [(hsame r).1, (hsame src).2.1, (hsame src).2.2]

theorem inv_hwInt {T T' : Table} {pc : Pc} {p : Int} {w : List Write}
    (h : Inv T pc) (htime : ¬ AboutToBlock ⟨T, pc⟩ p)
    (hcall : hwIntNotification T p = .ok (T', w)) : Inv T' pc := by
  have hns : ∀ r src, NoSender T' r src ↔ NoSender T r src :=
    fun _ _ => noSender_hwInt hcall
  rcases hwIntNotification_cases hcall with ⟨hw, hst, rfl, -⟩ | ⟨hw, rfl, -⟩
  · refine ⟨not_sleeps_upd h.awake (not_sleeps_of_not_receiving
      (by rw [upd_self]; rfl)), ?_⟩
    intro q src m hpc
    obtain ⟨hrun, hwin⟩ := h.window q src m hpc
    -- a process in the window runs, so it is not the one that was woken
    have hne : q ≠ p := by
      rintro rfl
      rw [hrun] at hst
      cases hst
    refine ⟨by rw [upd_of_ne T _ hne]; exact hrun, ?_⟩
    intro hint hsrc hno
    rw [upd_of_ne T _ hne] at hint
    exact hwin hint hsrc ((hns q src).mp hno)
  · refine ⟨not_sleeps_upd h.awake ?_, ?_⟩
    · rintro ⟨hw', -⟩
      refine hw ?_
      simp only [IsWaitingForInt, upd_self] at hw'
      exact hw'
    · intro q src m hpc
      obtain ⟨hrun, hwin⟩ := h.window q src m hpc
      by_cases hqp : q = p
      · subst hqp
        refine ⟨by rw [upd_self]; exact hrun, ?_⟩
        intro _ hsrc hno
        exact htime ⟨src, m, hpc, hsrc, (hns q src).mp hno⟩
      · refine ⟨by rw [upd_of_ne T _ hqp]; exact hrun, ?_⟩
        intro hint hsrc hno
        rw [upd_of_ne T _ hqp] at hint
        exact hwin hint hsrc ((hns q src).mp hno)

/-- **STEP**: with no interrupt in the window, nobody falls asleep on one. -/
theorem inv_step {s t : State} {e : Event} (h : Inv s.table s.pc)
    (htime : Timely s e) (hstep : Step s e t) : Inv t.table t.pc := by
  cases hstep with
  | send _ hrun _ hcall =>
      refine ⟨not_sleeps_send h.awake hrun hcall, ?_⟩
      intro p src m hpc
      cases hpc
  | take _ _ _ hcall =>
      obtain ⟨w, hw⟩ | ⟨hnone, -⟩ := rcvTest_cases hcall
      · cases hw
        refine ⟨not_sleeps_upd h.awake ?_, ?_⟩
        · rintro ⟨-, hint⟩
          rw [upd_self] at hint
          cases hint
        · intro p src m hpc
          cases hpc
      · cases hnone
  | test _ hrun _ hcall =>
      obtain ⟨w, hw⟩ | ⟨-, hno⟩ := rcvTest_cases hcall
      · cases hw
      · refine ⟨h.awake, ?_⟩
        intro p src m hpc
        cases hpc
        exact ⟨hrun, fun hint hsrc => absurd ⟨hint, hsrc⟩ hno⟩
  | @rest fuel T T' r src m w b hcall =>
      obtain ⟨hrun, hwin⟩ := h.window r src m rfl
      rcases rcvRest_cases hcall with ⟨rfl, s, x, l, hs, rfl⟩ | ⟨rfl, hno, rfl⟩
      · refine ⟨not_sleeps_upd
          (not_sleeps_setLink (not_sleeps_setLink h.awake)) ?_, ?_⟩
        · refine not_sleeps_of_not_receiving ?_
          rw [upd_self]
          show (setLink (setLink T x l) s none s).procState.receiving = false
          rw [setLink_procState, setLink_procState, hs]
          rfl
        · intro p src m hpc
          cases hpc
      · refine ⟨not_sleeps_upd h.awake ?_, ?_⟩
        · rintro ⟨⟨-, hfrom⟩, hint⟩
          rw [upd_self] at hfrom hint
          exact hwin hint hfrom.symm hno
        · intro p src m hpc
          cases hpc
  | check _ =>
      refine ⟨h.awake, ?_⟩
      intro p src m hpc
      cases hpc
  | hwInt _ hcall => exact inv_hwInt h htime hcall
  | @outside T T' hin =>
      refine ⟨?_, ?_⟩
      · intro p hp
        have hsame : wait (T' p) = wait (T p) := by rw [hin p hp]
        rw [sleeps_congr hsame]
        exact h.awake p hp
      · intro p src m hpc
        cases hpc

/-- At boot nobody waits. -/
theorem inv_boot {s : State} (h : Boot s) : Inv s.table s.pc := by
  obtain ⟨⟨kTop, outside, hT⟩, hpc⟩ := h
  refine ⟨?_, ?_⟩
  · intro p hp
    refine not_sleeps_of_not_receiving ?_
    rw [hT]
    rcases (initProcess_idle kTop outside hp).1 with hst | hst <;> rw [hst] <;>
      rfl
  · intro p src m hp
    rw [hpc] at hp
    cases hp

/-- **NO INTERRUPT IS SLEPT THROUGH**, in every run in which none arrives for
    a process between its test of `has_int_msg` and its `block`. -/
theorem no_interrupt_slept {s : State} (h : Reach Boot Step Timely s) :
    ∀ p, InTable p → ¬ Sleeps s.table p :=
  (reach_invariant (fun s => Inv s.table s.pc) (fun _ => inv_boot)
    (fun _ _ _ hs hg hstep => inv_step hs hg hstep) h).awake

/-! ## A run that meets the condition and one that does not -/

/-- The kernel at boot. -/
def bootState : State := ⟨initProcess 0 fun _ => freeProc, .idle⟩

theorem bootState_boot : Boot bootState := ⟨⟨0, _, rfl⟩, rfl⟩

/-- The TTY task has tested `has_int_msg` for a `receive(ANY)`. -/
def testedState : State := ⟨bootState.table, .tested TASK_TTY ANY 1⟩

theorem testedState_step : Step bootState (.test TASK_TTY ANY 1) testedState :=
  .test (by decide) (by decide) (Or.inr (Or.inl rfl)) rfl

/-- An interrupt before the call is taken by it, and nobody sleeps. -/
theorem no_interrupt_slept_tty :
    ∃ s : State, Reach Boot Step Timely s ∧
      (s.table TASK_TTY).procState = RECEIVING ∧
      ∀ p, InTable p → ¬ Sleeps s.table p := by
  let s : State :=
    ⟨bootState.table.upd TASK_TTY (blockedReceiving ANY 1), .blocked TASK_TTY⟩
  have hcall : rcvRest 1 testedState.table TASK_TTY ANY 1 =
      .ok (s.table, [], true) := rfl
  have hrest : Step testedState .rest s := .rest hcall
  have htested : Reach Boot Step Timely testedState :=
    .next (e := .test TASK_TTY ANY 1) (.start bootState_boot) trivial
      testedState_step
  have hreach : Reach Boot Step Timely s :=
    .next (e := .rest) htested trivial hrest
  exact ⟨s, hreach, rfl, no_interrupt_slept hreach⟩

/-- **THE LOST WAKE-UP**: the TTY task tests, the keyboard interrupt comes,
    the task blocks. -/
theorem interrupt_slept :
    ∃ s p, Reach Boot Step free s ∧ InTable p ∧ Sleeps s.table p := by
  let T₁ := bootState.table.upd TASK_TTY fun x => { x with hasIntMsg := true }
  let s : State :=
    ⟨T₁.upd TASK_TTY (blockedReceiving ANY 1), .blocked TASK_TTY⟩
  have hnote : hwIntNotification testedState.table TASK_TTY = .ok (T₁, []) :=
    rfl
  have hint : Step testedState (.hwInt TASK_TTY) ⟨T₁, .tested TASK_TTY ANY 1⟩ :=
    .hwInt (by decide) hnote
  have hcall : rcvRest 1 T₁ TASK_TTY ANY 1 = .ok (s.table, [], true) := rfl
  have hrest : Step ⟨T₁, .tested TASK_TTY ANY 1⟩ .rest s := .rest hcall
  refine ⟨s, TASK_TTY, ?_, by decide, ⟨rfl, Or.inr rfl⟩, rfl⟩
  exact .next (.next (.next (.start bootState_boot) trivial testedState_step)
    trivial hint) trivial hrest

/-- The closing assertion of `kernel_msg_rcv` rules such a state out, but only
    by stopping the machine. -/
theorem check_of_sleeps {T : Table} {p : Int} (h : Sleeps T p) :
    rcvCheck T p ≠ .ok () := by
  intro hc
  simp only [rcvCheck, assertMultiple, bind_eq_ok, assert_eq_ok,
    exists_const] at hc
  rw [h.2] at hc
  exact Bool.noConfusion hc.2.2.2.2

end KosInterruptWindow
