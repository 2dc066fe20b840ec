import Kos.ForkQueuesProofs
import Kos.TableAccessProofs

/-! # The indices of the message passing

    `kernel_msg_send`, `kernel_msg_rcv` and `check_deadlock` as programs on
    `proc_table` that touch one entry at a time.  `sys_send_rcv_handler` lets
    `ANY` and `INTERRUPT` through as well, and no function but `kernel_msg_rcv`
    looks for them before it takes them for an index.

    * the programs do what the functions of `KosIpc` do (`run_kernelMsgSend`,
      `run_kernelMsgRcv`);
    * where every sender and every link points into the table, a call stays in
      the table if and only if it is no SEND to a pseudo-pid, and no RECEIVE
      from `INTERRUPT` without a pending interrupt (`inBounds_iff`). -/

namespace KosIpcIndex

open FlatMemory KosKernel LinkChain GuardedRun TableAccess
open KosIpc hiding Event Step
open KosForkExec hiding Step
open KosForkQueues (Label sought)
open KosProcessManager (childProc setParent)

/-- A program of the kernel. -/
abbrev IpcM := Prog Int Proc Halt

/-- `assert(exp)`. -/
def check (c : Prop) [Decidable c] : IpcM Unit :=
  if c then pure () else .halt .assertionFailure

/-! ## The source functions, entry by entry -/

/-- `assert_multiple`. -/
def assertMultipleAt (sender receiver : Int) (m : Addr) : Nat → IpcM Unit
  | 1 => do
      let r ← entry receiver
      check (r.pendingMsg ≠ 0)
      check (m ≠ 0)
  | 2 => do
      let r ← entry receiver
      check (r.procState = RUNNABLE)
      check (r.pendingMsg = 0)
      check (r.pidRecvingfrom = NO_TASK)
      check (r.pidSendingto = NO_TASK)
      let s ← entry sender
      check (s.procState = RUNNABLE)
      check (s.pendingMsg = 0)
      check (s.pidRecvingfrom = NO_TASK)
      check (s.pidSendingto = NO_TASK)
  | 3 => do
      let s ← entry sender
      check (s.procState = SENDING)
      check (s.pendingMsg ≠ 0)
      check (s.pidRecvingfrom = NO_TASK)
  | 4 => do
      let r ← entry receiver
      check (r.procState = RUNNABLE)
      check (r.pendingMsg = 0)
      check (r.pidSendingto = NO_TASK)
      check (r.hasIntMsg = false)
  | 5 | 6 => do
      let r ← entry receiver
      check (r.procState = RUNNABLE)
      check (r.pendingMsg = 0)
      check (r.pidRecvingfrom = NO_TASK)
      check (r.pidSendingto = NO_TASK)
      check (r.qPendingProc ≠ none)
      let s ← entry sender
      check (s.procState = SENDING)
      check (s.pendingMsg ≠ 0)
      check (s.pidRecvingfrom = NO_TASK)
      check (s.pidSendingto = receiver)
  | 7 => do
      check (m ≠ 0)
      let s ← entry sender
      check (s.pendingMsg ≠ 0)
  | 8 => do
      let r ← entry receiver
      check (r.procState = RECEIVING)
      check (r.pendingMsg ≠ 0)
      check (r.pidRecvingfrom ≠ NO_TASK)
      check (r.pidSendingto = NO_TASK)
      check (r.hasIntMsg = false)
  | 9 => do
      let r ← entry receiver
      check (r.procState = RUNNABLE)
      check (r.pendingMsg = 0)
      check (r.pidRecvingfrom = NO_TASK)
      check (r.pidSendingto = NO_TASK)
  | _ => pure ()

/-- `block`. -/
def blockAt (p : Int) : IpcM Unit := do
  let x ← entry p
  check (x.procState ≠ RUNNABLE)

/-- `unblock`. -/
def unblockAt (p : Int) : IpcM Unit := do
  let x ← entry p
  check (x.procState = RUNNABLE)

/-- `proc_va2la`. -/
def procVa2laAt (pid : Int) (va : Addr) : IpcM Addr := do
  let x ← entry pid
  let la := gdtLdtToBaseAddr x.ldtRw + va
  check (pid < NR_TASKS_NATIVE + NR_PROCS_NATIVE → la = va)
  pure la

/-- The loop of `check_deadlock` that prints the chain it has found, with the
    names it prints. -/
def printChainAt (pidSender : Int) : Nat → Int → IpcM Unit
  | 0, _ => .halt .spin
  | n + 1, p => do
      let x ← entry p
      check (x.pendingMsg ≠ 0)
      if x.pidSendingto = pidSender then do
        let _ ← entry pidSender
        pure ()
      else printChainAt pidSender n x.pidSendingto

/-- The search loop of `check_deadlock`. -/
def checkDeadlockLoopAt (pidSender : Int) (print : IpcM Unit) :
    Nat → Int → IpcM Bool
  | 0, _ => .halt .spin
  | n + 1, p => do
      let x ← entry p
      if x.procState.sending then
        if x.pidSendingto = pidSender then do
          print
          pure true
        else checkDeadlockLoopAt pidSender print n x.pidSendingto
      else pure false

/-- `check_deadlock`. -/
def checkDeadlockAt (fuel : Nat) (pidSender pidReceiver : Int) : IpcM Bool :=
  checkDeadlockLoopAt pidSender (printChainAt pidSender fuel pidReceiver) fuel
    pidReceiver

/-- The walk to the last process of a queue. -/
def lastAt : Nat → Int → IpcM Int
  | 0, _ => .halt .spin
  | n + 1, p => do
      let x ← entry p
      match x.qPendingProc with
      | none => pure p
      | some q => lastAt n q

/-- "append to the sending queue" in `kernel_msg_send`. -/
def appendToQueueAt (fuel : Nat) (sender receiver : Int) : IpcM Unit := do
  let r ← entry receiver
  match r.qPendingProc with
  | some p => do
      let p ← lastAt fuel p
      assign p fun x => { x with qPendingProc := some sender }
      assign sender fun x => { x with qPendingProc := none }
  | none => do
      assign receiver fun x => { x with qPendingProc := some sender }
      assign sender fun x => { x with qPendingProc := none }

/-- The first test of `kernel_msg_send`, on the entry of the receiver. -/
def waitsFor (r : Proc) (sender : Int) : Prop :=
  r.procState.receiving = true ∧
    (r.pidRecvingfrom = sender ∨ r.pidRecvingfrom = ANY)

instance (r : Proc) (sender : Int) : Decidable (waitsFor r sender) :=
  inferInstanceAs (Decidable (_ ∧ _))

/-- `kernel_msg_send`. -/
def kernelMsgSendAt (fuel : Nat) (current pidReceiver : Int) (m : Addr) :
    IpcM (List Write) := do
  let sender := current
  let receiver := pidReceiver
  check (sender ≠ pidReceiver)
  let deadlock ← checkDeadlockAt fuel sender pidReceiver
  if deadlock then do
    -- the names in the message of the panic
    let _ ← entry sender
    let _ ← entry receiver
    .halt .panic
  else do
    let r ← entry receiver
    if waitsFor r sender then do
      assertMultipleAt 0 receiver m 1
      let dst ← procVa2laAt pidReceiver r.pendingMsg
      let src ← procVa2laAt sender m
      assign receiver delivered
      unblockAt receiver
      assertMultipleAt sender receiver 0 2
      pure [.copyMsg receiver sender dst src]
    else do
      assign sender (blockedSending pidReceiver m)
      let s ← entry sender
      check (s.procState = SENDING)
      appendToQueueAt fuel sender receiver
      blockAt sender
      assertMultipleAt sender 0 0 3
      pure []

/-- The search of `kernel_msg_rcv` for the predecessor of a given sender. -/
def searchQueueAt (pidSender : Int) :
    Nat → Option Int → Option Int → IpcM (Option Int)
  | 0, _, _ => .halt .spin
  | _ + 1, none, prev => pure prev
  | n + 1, some p, prev => do
      let s ← entry pidSender
      check (s.procState.sending = true)
      if p = pidSender then pure prev
      else do
        let x ← entry p
        searchQueueAt pidSender n x.qPendingProc (some p)

/-- The sender that `kernel_msg_rcv` takes a message from. -/
def chooseSenderAt (fuel : Nat) (receiver pidSender : Int) :
    IpcM (Option (Int × Option Int)) :=
  if pidSender = ANY then do
    let r ← entry receiver
    match r.qPendingProc with
    | some sender => do
        assertMultipleAt sender receiver 0 5
        pure (some (sender, none))
    | none => pure none
  else do
    let s ← entry pidSender
    if s.procState.sending = true ∧ s.pidSendingto = receiver then do
      let r ← entry receiver
      check (r.qPendingProc ≠ none)
      let prev ← searchQueueAt pidSender fuel r.qPendingProc none
      assertMultipleAt pidSender receiver 0 6
      pure (some (pidSender, prev))
    else pure none

/-- Remove the chosen sender from the receiver's queue. -/
def unlinkSenderAt (receiver sender : Int) (prev : Option Int) :
    IpcM Unit := do
  let r ← entry receiver
  let s ← entry sender
  if r.qPendingProc = some sender then do
    check (prev = none)
    assign receiver fun x => { x with qPendingProc := s.qPendingProc }
    assign sender fun x => { x with qPendingProc := none }
  else
    match prev with
    | none => .halt .assertionFailure
    | some prev => do
        assign prev fun x => { x with qPendingProc := s.qPendingProc }
        assign sender fun x => { x with qPendingProc := none }

/-- `kernel_msg_rcv`. -/
def kernelMsgRcvAt (fuel : Nat) (current pidSender : Int) (m : Addr) :
    IpcM (List Write) := do
  let receiver := current
  check (receiver ≠ pidSender)
  let r ← entry receiver
  if r.hasIntMsg = true ∧ (pidSender = ANY ∨ pidSender = INTERRUPT) then do
    check (m ≠ 0)
    let dst ← procVa2laAt receiver m
    assign receiver fun p => { p with hasIntMsg := false }
    assertMultipleAt 0 receiver 0 4
    pure [.copyIntMsg receiver dst]
  else do
    let choice ← chooseSenderAt fuel receiver pidSender
    match choice with
    | some (sender, prev) => do
        unlinkSenderAt receiver sender prev
        assertMultipleAt sender 0 m 7
        let dst ← procVa2laAt receiver m
        let s ← entry sender
        let src ← procVa2laAt sender s.pendingMsg
        assign sender released
        unblockAt sender
        pure [.copyMsg receiver sender dst src]
    | none => do
        assign receiver (blockedReceiving pidSender m)
        blockAt receiver
        assertMultipleAt 0 receiver 0 8
        pure []

def SEND : Int := 1
def RECEIVE : Int := 2

/-- `sys_send_rcv_handler`, behind its assertions. -/
def sendRcvAt (fuel : Nat) (function caller pidSenderReceiver : Int)
    (m : Addr) : IpcM (List Write) :=
  if function = SEND then kernelMsgSendAt fuel caller pidSenderReceiver m
  else if function = RECEIVE then
    kernelMsgRcvAt fuel caller pidSenderReceiver m
  else .halt .panic

/-! ## They are the functions of the model -/

section Run

variable {α β : Type} {T : Table} {fuel n : Nat} {sender receiver p : Int}
  {m : Addr}

/-- A change of an entry is that of the table. -/
@[simp] theorem change_eq (T : Table) (i : Int) (f : Proc → Proc) :
    change T i f = T.upd i f := rfl

/-- The program computes `x` and leaves the table as it is. -/
def Computes (p : IpcM α) (T : Table) (x : Except Halt α) : Prop :=
  run p T = x >>= fun a => .ok (T, a)

/-- An assertion, with what follows. -/
theorem run_check_bind (c : Prop) [Decidable c] (k : Unit → IpcM β)
    (T : Table) :
    run (check c >>= k) T = assert c >>= fun _ => run (k ()) T := by
  rw [check, assert]
  split <;> rfl

theorem run_check (c : Prop) [Decidable c] (T : Table) :
    run (check c) T = assert c >>= fun _ => .ok (T, ()) := by
  rw [check, assert]
  split <;> rfl

/-- A program that computes a value, with what follows. -/
theorem run_computes_bind {p : IpcM α} {x : Except Halt α}
    (h : Computes p T x) (k : α → IpcM β) :
    run (p >>= k) T = x >>= fun a => run (k a) T := by
  rw [run_bind, h]
  cases x <;> rfl

/-- `assert_multiple` computes what the model of it does. -/
theorem computes_assertMultiple (sender receiver : Int) (m : Addr) (T : Table) :
    ∀ k, Computes (assertMultipleAt sender receiver m k) T
      (assertMultiple T sender receiver m k) := by
  intro k
  rcases k with _ | _ | _ | _ | _ | _ | _ | _ | _ | _ | k <;>
    simp only [Computes, assertMultipleAt, assertMultiple, run_entry_bind,
      run_check_bind, run_check, bind_assoc] <;> rfl

/-- `block` does. -/
theorem computes_block (p : Int) (T : Table) :
    Computes (blockAt p) T (block T p) := run_check _ T

/-- `unblock` does. -/
theorem computes_unblock (p : Int) (T : Table) :
    Computes (unblockAt p) T (unblock T p) := run_check _ T

/-- `proc_va2la` does. -/
theorem computes_procVa2la (pid : Int) (va : Addr) (T : Table) :
    Computes (procVa2laAt pid va) T (procVa2la T pid va) := by
  simp only [Computes, procVa2laAt, procVa2la, run_entry_bind, run_check_bind,
    bind_assoc]
  rfl

/-- The loop that prints the chain does. -/
theorem computes_printChain (T : Table) (pidSender : Int) : ∀ n p,
    Computes (printChainAt pidSender n p) T (printChain T pidSender n p) := by
  intro n
  induction n with
  | zero => exact fun p => rfl
  | succ n ih =>
      intro p
      simp only [Computes, printChainAt, printChain, run_entry_bind,
        run_check_bind, bind_assoc]
      split
      · rfl
      · rw [ih]

/-- The loop of `check_deadlock` does. -/
theorem computes_checkDeadlockLoop (T : Table) (pidSender : Int)
    {print : IpcM Unit} {x : Except Halt Unit} (h : Computes print T x) :
    ∀ n p, Computes (checkDeadlockLoopAt pidSender print n p) T
      (checkDeadlockLoop T pidSender x n p) := by
  intro n
  induction n with
  | zero => exact fun p => rfl
  | succ n ih =>
      intro p
      simp only [Computes, checkDeadlockLoopAt, checkDeadlockLoop,
        run_entry_bind]
      split
      · split
        · rw [run_computes_bind h, bind_assoc]
          rfl
        · exact ih _
      · rfl

/-- `check_deadlock` does. -/
theorem computes_checkDeadlock (fuel : Nat) (sender receiver : Int)
    (T : Table) : Computes (checkDeadlockAt fuel sender receiver) T
      (checkDeadlock fuel T sender receiver) :=
  computes_checkDeadlockLoop T sender
    (computes_printChain T sender fuel receiver) fuel receiver

/-- The walk finds the last process, or uses up its fuel. -/
theorem computes_last (T : Table) : ∀ n p, Computes (lastAt n p) T
    (match lastOf (qLink T) n p with
      | some q => .ok q
      | none => .error .spin) := by
  intro n
  induction n with
  | zero => exact fun p => rfl
  | succ n ih =>
      intro p
      simp only [Computes, lastAt, run_entry_bind, lastOf, qLink]
      cases hq : (T p).qPendingProc with
      | none => rfl
      | some q => exact ih q

/-- The end of the queue is found and linked as in the model. -/
theorem run_appendToQueue (fuel : Nat) (sender receiver : Int) (T : Table) :
    run (appendToQueueAt fuel sender receiver) T =
      appendToQueue fuel T sender receiver >>= fun T' => .ok (T', ()) := by
  simp only [appendToQueueAt, appendToQueue, linkLast, run_entry_bind]
  cases hq : (T receiver).qPendingProc with
  | none => rfl
  | some p =>
      dsimp only
      rw [run_computes_bind (computes_last T fuel p)]
      cases lastOf (qLink T) fuel p <;> rfl

/-- **SEND** as a program is `kernelMsgSend`. -/
theorem run_kernelMsgSend (fuel : Nat) (current pidReceiver : Int) (m : Addr)
    (T : Table) : run (kernelMsgSendAt fuel current pidReceiver m) T =
      kernelMsgSend fuel T current pidReceiver m := by
  simp only [kernelMsgSendAt, kernelMsgSend, run_check_bind,
    run_computes_bind (computes_checkDeadlock _ _ _ _)]
  congr 1
  funext _
  congr 1
  funext deadlock
  cases deadlock with
  | true => rfl
  | false =>
      simp only [Bool.false_eq_true, if_false, run_entry_bind]
      by_cases hw : IsWaitingFor T pidReceiver current
      · have hw' : waitsFor (T pidReceiver) current := hw
        rw [if_pos hw, if_pos hw']
        simp only [run_computes_bind (computes_assertMultiple _ _ _ _ _),
          run_computes_bind (computes_procVa2la _ _ _), run_assign_bind,
          run_computes_bind (computes_unblock _ _), change_eq, run_pure]
        rfl
      · have hw' : ¬ waitsFor (T pidReceiver) current := hw
        rw [if_neg hw, if_neg hw']
        simp only [run_assign_bind, run_entry_bind, run_check_bind, change_eq]
        congr 1
        funext _
        rw [run_bind, run_appendToQueue, bind_assoc]
        congr 1
        funext T'
        simp only [run_computes_bind (computes_block _ _),
          run_computes_bind (computes_assertMultiple _ _ _ _ _), run_pure]
        rfl

/-- The search for a sender in the queue is that of the model. -/
theorem computes_searchQueue (T : Table) (pidSender : Int) : ∀ n p prev,
    Computes (searchQueueAt pidSender n p prev) T
      (searchQueue T pidSender n p prev) := by
  intro n
  induction n with
  | zero => exact fun p prev => rfl
  | succ n ih =>
      intro p prev
      cases p with
      | none => rfl
      | some p =>
          simp only [Computes, searchQueueAt, searchQueue, run_entry_bind,
            run_check_bind, bind_assoc]
          split
          · rfl
          · rw [run_entry_bind, ih]

/-- The choice of the sender is that of the model. -/
theorem computes_chooseSender (fuel : Nat) (receiver pidSender : Int)
    (T : Table) : Computes (chooseSenderAt fuel receiver pidSender) T
      (chooseSender fuel T receiver pidSender) := by
  unfold Computes chooseSenderAt chooseSender
  split
  · rw [run_entry_bind]
    cases (T receiver).qPendingProc with
    | none => rfl
    | some sender =>
        dsimp only
        rw [run_computes_bind (computes_assertMultiple _ _ _ _ _), bind_assoc]
        rfl
  · rw [run_entry_bind]
    split
    · simp only [run_entry_bind, run_check_bind, bind_assoc,
        run_computes_bind (computes_searchQueue _ _ _ _ _),
        run_computes_bind (computes_assertMultiple _ _ _ _ _)]
      rfl
    · rfl

/-- A sender leaves the queue as in the model. -/
theorem run_unlinkSender (receiver sender : Int) (prev : Option Int)
    (T : Table) : run (unlinkSenderAt receiver sender prev) T =
      unlinkSender T receiver sender prev >>= fun T' => .ok (T', ()) := by
  simp only [unlinkSenderAt, unlinkSender, run_entry_bind]
  split
  · rw [run_check_bind, bind_assoc]
    rfl
  · cases prev <;> rfl

/-- **RECEIVE** as a program is `kernelMsgRcv`. -/
theorem run_kernelMsgRcv (fuel : Nat) (current pidSender : Int) (m : Addr)
    (T : Table) : run (kernelMsgRcvAt fuel current pidSender m) T =
      kernelMsgRcv fuel T current pidSender m := by
  simp only [kernelMsgRcvAt, kernelMsgRcv, run_check_bind, run_entry_bind]
  congr 1
  funext _
  split
  · simp only [run_check_bind, run_computes_bind (computes_procVa2la _ _ _),
      run_assign_bind, change_eq, run_pure,
      run_computes_bind (computes_assertMultiple _ _ _ _ _)]
    rfl
  · rw [run_computes_bind (computes_chooseSender _ _ _ _)]
    congr 1
    funext choice
    cases choice with
    | none =>
        simp only [run_assign_bind, change_eq, run_pure,
          run_computes_bind (computes_block _ _),
          run_computes_bind (computes_assertMultiple _ _ _ _ _)]
        rfl
    | some c =>
        obtain ⟨sender, prev⟩ := c
        dsimp only
        rw [run_bind, run_unlinkSender, bind_assoc]
        congr 1
        funext T'
        simp only [run_computes_bind (computes_assertMultiple _ _ _ _ _),
          run_computes_bind (computes_procVa2la _ _ _), run_entry_bind,
          run_assign_bind, change_eq, run_pure,
          run_computes_bind (computes_unblock _ _)]
        rfl

end Run

/-! ## One call -/

/-- Every sender and every link points into the table. -/
structure Pointed (T : Table) : Prop where
  target : ∀ q, InTable q → (T q).procState.sending = true →
    InTable (T q).pidSendingto
  link : ∀ q x, InTable q → qLink T q = some x → InTable x

section Bounds

variable {α β : Type} {T : Table} {fuel n : Nat} {s r p : Int} {m : Addr}

/-- An assertion reads no entry, and what follows runs if it holds. -/
theorem within_check_bind {c : Prop} [Decidable c] {k : Unit → IpcM β} :
    Within InTable (check c >>= k) T ↔ (c → Within InTable (k ()) T) := by
  rw [check]
  by_cases hc : c
  · rw [if_pos hc]
    exact ⟨fun h _ => h, fun h => h hc⟩
  · rw [if_neg hc]
    refine ⟨fun _ h => absurd h hc, fun _ => ?_⟩
    intro i hi
    cases hi

theorem within_check {c : Prop} [Decidable c] :
    Within InTable (check c) T := by
  rw [check]
  split
  · exact within_pure ()
  · exact within_halt _

/-- A program that leaves the table as it is, and what comes behind it. -/
theorem within_computes_bind {p : IpcM α} {x : Except Halt α}
    {k : α → IpcM β} (hp : Computes p T x) (h : Within InTable p T)
    (hk : ∀ a, x = .ok a → Within InTable (k a) T) :
    Within InTable (p >>= k) T := by
  refine within_bind h fun T' a hrun => ?_
  rw [hp] at hrun
  cases hx : x with
  | error e =>
      rw [hx] at hrun
      cases hrun
  | ok b =>
      rw [hx] at hrun
      cases hrun
      exact hk a hx

/-- `assert_multiple` reads the two entries. -/
theorem within_assertMultiple (hs : InTable s) (hr : InTable r) (m : Addr) :
    ∀ k, Within InTable (assertMultipleAt s r m k) T := by
  intro k
  rcases k with _ | _ | _ | _ | _ | _ | _ | _ | _ | _ | k <;>
    simp only [assertMultipleAt, within_entry_bind, within_check_bind,
      within_check, within_pure, hs, hr, true_and, implies_true]

/-- `block` reads the entry of its process. -/
theorem within_block (hp : InTable p) : Within InTable (blockAt p) T :=
  within_entry_bind.mpr ⟨hp, within_check⟩

/-- So does `unblock`. -/
theorem within_unblock (hp : InTable p) : Within InTable (unblockAt p) T :=
  within_entry_bind.mpr ⟨hp, within_check⟩

/-- So does `proc_va2la`. -/
theorem within_procVa2la (hp : InTable p) (va : Addr) :
    Within InTable (procVa2laAt p va) T :=
  within_entry_bind.mpr ⟨hp, within_check_bind.mpr fun _ => within_pure _⟩

/-- The processes from `p` on are SENDING, each to the next, up to one that is
    SENDING to `s`. -/
inductive Leads (T : Table) (s : Int) : Int → Prop where
  | last {p : Int} (hsend : (T p).procState.sending = true)
      (hto : (T p).pidSendingto = s) : Leads T s p
  | next {p : Int} (hsend : (T p).procState.sending = true)
      (hrest : Leads T s (T p).pidSendingto) : Leads T s p

/-- The chain that is printed has been found before. -/
theorem within_printChain (hT : Pointed T) (hs : InTable s) :
    ∀ n p, InTable p → Leads T s p →
      Within InTable (printChainAt s n p) T := by
  intro n
  induction n with
  | zero => exact fun _ _ _ => within_halt _
  | succ n ih =>
      intro p hp hlead
      rw [printChainAt, within_entry_bind, within_check_bind]
      refine ⟨hp, fun _ => ?_⟩
      split
      · exact within_entry_bind.mpr ⟨hs, within_pure _⟩
      · rename_i hto
        cases hlead with
        | last _ hto' => exact absurd hto' hto
        | next hsend hrest => exact ih _ (hT.target p hp hsend) hrest

/-- The loop stays in the table as long as the chain does. -/
theorem within_checkDeadlockLoop (hT : Pointed T) {print : IpcM Unit}
    {x : Except Halt Unit} (hprint : Computes print T x) :
    ∀ n p, InTable p → (Leads T s p → Within InTable print T) →
      Within InTable (checkDeadlockLoopAt s print n p) T := by
  intro n
  induction n with
  | zero => exact fun _ _ _ => within_halt _
  | succ n ih =>
      intro p hp hfound
      rw [checkDeadlockLoopAt, within_entry_bind]
      refine ⟨hp, ?_⟩
      split
      · rename_i hsend
        split
        · rename_i hto
          exact within_computes_bind hprint (hfound (.last hsend hto))
            fun _ _ => within_pure _
        · exact ih _ (hT.target p hp hsend)
            fun hlead => hfound (.next hsend hlead)
      · exact within_pure _

/-- So does `check_deadlock`. -/
theorem within_checkDeadlock (hT : Pointed T) (hs : InTable s)
    (hr : InTable r) (fuel : Nat) :
    Within InTable (checkDeadlockAt fuel s r) T :=
  within_checkDeadlockLoop hT (computes_printChain T s fuel r) fuel r hr
    (within_printChain hT hs fuel r hr)

/-- The walk along a queue stays in the table and ends in it. -/
theorem within_last (hlink : ∀ q x, InTable q → qLink T q = some x →
    InTable x) : ∀ n p, InTable p → Within InTable (lastAt n p) T ∧
      ∀ q, lastOf (qLink T) n p = some q → InTable q := by
  intro n
  induction n with
  | zero =>
      intro p _
      refine ⟨within_halt _, fun q hq => ?_⟩
      cases hq
  | succ n ih =>
      intro p hp
      rw [lastAt, within_entry_bind, lastOf]
      cases hq : (T p).qPendingProc with
      | none =>
          simp only [qLink, hq]
          refine ⟨⟨hp, within_pure _⟩, fun q hq => ?_⟩
          obtain rfl := Option.some.inj hq
          exact hp
      | some q =>
          simp only [qLink, hq]
          obtain ⟨hwithin, hend⟩ := ih q (hlink p q hp hq)
          exact ⟨⟨hp, hwithin⟩, hend⟩

/-- The walk to the end of a queue stays in the table. -/
theorem within_appendToQueue (hlink : ∀ q x, InTable q → qLink T q = some x →
    InTable x) (hs : InTable s) (hr : InTable r) :
    Within InTable (appendToQueueAt fuel s r) T := by
  rw [appendToQueueAt, within_entry_bind]
  refine ⟨hr, ?_⟩
  cases hq : (T r).qPendingProc with
  | none =>
      exact within_assign_bind.mpr ⟨hr, within_assign.mpr hs⟩
  | some p =>
      obtain ⟨hwithin, hend⟩ := within_last hlink fuel p (hlink r p hr hq)
      refine within_computes_bind (computes_last T fuel p) hwithin
        fun t ht => ?_
      have hlast : InTable t := by
        cases hl : lastOf (qLink T) fuel p with
        | none =>
            rw [hl] at ht
            cases ht
        | some q =>
            rw [hl] at ht
            cases ht
            exact hend t hl
      exact within_assign_bind.mpr ⟨hlast, within_assign.mpr hs⟩

/-- **SEND** to a process of the table stays in it. -/
theorem within_kernelMsgSend (hT : Pointed T) (hs : InTable s)
    (hr : InTable r) : Within InTable (kernelMsgSendAt fuel s r m) T := by
  rw [kernelMsgSendAt, within_check_bind]
  intro _
  refine within_computes_bind (computes_checkDeadlock fuel s r T)
    (within_checkDeadlock hT hs hr fuel) fun deadlock _ => ?_
  cases deadlock with
  -- the text of the panic has both names
  | true => exact within_entry_bind.mpr ⟨hs, within_entry_bind.mpr
      ⟨hr, within_halt _⟩⟩
  | false =>
      simp only [Bool.false_eq_true, if_false]
      rw [within_entry_bind]
      refine ⟨hr, ?_⟩
      have h0 : InTable 0 := by decide
      split
      · -- the receiver waits
        refine within_computes_bind (computes_assertMultiple 0 r m T 1)
          (within_assertMultiple h0 hr m 1) fun _ _ => ?_
        refine within_computes_bind (computes_procVa2la r _ T)
          (within_procVa2la hr _) fun _ _ => ?_
        refine within_computes_bind (computes_procVa2la s m T)
          (within_procVa2la hs m) fun _ _ => ?_
        rw [within_assign_bind]
        refine ⟨hr, ?_⟩
        refine within_computes_bind (computes_unblock r _) (within_unblock hr)
          fun _ _ => ?_
        exact within_computes_bind (computes_assertMultiple s r 0 _ 2)
          (within_assertMultiple hs hr 0 2) fun _ _ => within_pure _
      · -- it does not: the queue is walked to its end
        rw [within_assign_bind, within_entry_bind, within_check_bind]
        refine ⟨hs, hs, fun _ => ?_⟩
        have hlink : ∀ q x, InTable q →
            qLink (change T s (blockedSending r m)) q = some x →
            InTable x := by
          intro q x hq hx
          rw [change_eq, qLink_upd T s (blockedSending r m) fun _ => rfl] at hx
          exact hT.link q x hq hx
        refine within_bind (within_appendToQueue hlink hs hr) fun T' _ _ => ?_
        refine within_computes_bind (computes_block s T') (within_block hs)
          fun _ _ => ?_
        exact within_computes_bind (computes_assertMultiple s 0 0 T' 3)
          (within_assertMultiple hs h0 0 3) fun _ _ => within_pure _

/-- The search stays in the table, and so does the predecessor it finds. -/
theorem within_searchQueue (hT : Pointed T) (hs : InTable s) :
    ∀ n (p prev : Option Int), (∀ x, p = some x → InTable x) →
      (∀ x, prev = some x → InTable x) →
      Within InTable (searchQueueAt s n p prev) T ∧
        ∀ res, searchQueue T s n p prev = .ok res →
          ∀ x, res = some x → InTable x := by
  intro n
  induction n with
  | zero =>
      intro p prev _ _
      refine ⟨within_halt _, fun res h => ?_⟩
      cases h
  | succ n ih =>
      intro p prev hp hprev
      cases p with
      | none =>
          refine ⟨within_pure _, fun res h => ?_⟩
          obtain rfl : prev = res := pure_eq_ok.mp h
          exact hprev
      | some p =>
          have hpt : InTable p := hp p rfl
          have hself : ∀ x, some p = some x → InTable x := by
            intro x hx
            obtain rfl := Option.some.inj hx
            exact hpt
          -- the next one is a link of an entry, so it is one, too
          obtain ⟨hwithin, hres⟩ := ih (T p).qPendingProc (some p)
            (fun x hx => hT.link p x hpt hx) hself
          constructor
          · rw [searchQueueAt, within_entry_bind, within_check_bind]
            refine ⟨hs, fun _ => ?_⟩
            split
            · exact within_pure _
            · exact within_entry_bind.mpr ⟨hpt, hwithin⟩
          · intro res h
            simp only [searchQueue, bind_eq_ok, assert_eq_ok,
              exists_const] at h
            obtain ⟨-, h⟩ := h
            split at h
            · obtain rfl : prev = res := pure_eq_ok.mp h
              exact hprev
            · exact hres res h

/-- The sender that is chosen is in the table, and its predecessor is. -/
theorem within_chooseSender (fuel : Nat) (hT : Pointed T) (hr : InTable r)
    (hsrc : p = ANY ∨ InTable p) :
    Within InTable (chooseSenderAt fuel r p) T ∧
      ∀ sender prev, chooseSender fuel T r p = .ok (some (sender, prev)) →
        InTable sender ∧ ∀ x, prev = some x → InTable x := by
  rw [chooseSenderAt]
  split
  · -- from anybody: the head of the queue
    rename_i hany
    constructor
    · rw [within_entry_bind]
      refine ⟨hr, ?_⟩
      cases hq : (T r).qPendingProc with
      | none => exact within_pure _
      | some sender =>
          exact within_computes_bind (computes_assertMultiple sender r 0 T 5)
            (within_assertMultiple (hT.link r sender hr hq) hr 0 5)
            fun _ _ => within_pure _
    · intro sender prev h
      rcases (chooseSender_eq_ok h).1 with ⟨-, hq, rfl⟩ | ⟨hne, -⟩
      · refine ⟨hT.link r sender hr hq, fun x hx => ?_⟩
        cases hx
      · exact absurd hany hne
  · -- from one process: its own entry, and those of the queue before it
    rename_i hany
    have hp : InTable p := hsrc.resolve_left hany
    have hnone : ∀ x, (none : Option Int) = some x → InTable x := by
      intro x hx
      cases hx
    obtain ⟨hwithin, hprev⟩ := within_searchQueue hT hp fuel
      (T r).qPendingProc none (fun x hx => hT.link r x hr hx) hnone
    constructor
    · rw [within_entry_bind]
      refine ⟨hp, ?_⟩
      split
      · rw [within_entry_bind, within_check_bind]
        refine ⟨hr, fun _ => ?_⟩
        refine within_computes_bind (computes_searchQueue T p fuel _ none)
          hwithin fun _ _ => ?_
        exact within_computes_bind (computes_assertMultiple p r 0 T 6)
          (within_assertMultiple hp hr 0 6) fun _ _ => within_pure _
      · exact within_pure _
    · intro sender prev h
      rcases (chooseSender_eq_ok h).1 with ⟨hany', -⟩ | ⟨-, rfl, -, hsearch⟩
      · exact absurd hany' hany
      · exact ⟨hp, hprev prev hsearch⟩

/-- So does the unlinking. -/
theorem within_unlinkSender {prev : Option Int} (hr : InTable r)
    (hs : InTable s) (hprev : ∀ x, prev = some x → InTable x) :
    Within InTable (unlinkSenderAt r s prev) T := by
  rw [unlinkSenderAt, within_entry_bind, within_entry_bind]
  refine ⟨hr, hs, ?_⟩
  split
  · rw [within_check_bind, within_assign_bind]
    exact fun _ => ⟨hr, within_assign.mpr hs⟩
  · cases prev with
    | none => exact within_halt _
    | some x =>
        exact within_assign_bind.mpr ⟨hprev x rfl, within_assign.mpr hs⟩

/-- **RECEIVE** from a process of the table or from `ANY` stays in it, and so
    does one that finds an interrupt pending. -/
theorem within_kernelMsgRcv (hT : Pointed T) (hr : InTable r)
    (hsrc : InTable p ∨ p = ANY ∨ p = INTERRUPT ∧ (T r).hasIntMsg = true) :
    Within InTable (kernelMsgRcvAt fuel r p m) T := by
  rw [kernelMsgRcvAt, within_check_bind]
  intro _
  rw [within_entry_bind]
  refine ⟨hr, ?_⟩
  have h0 : InTable 0 := by decide
  split
  · -- a pending interrupt: the caller's entry only
    rw [within_check_bind]
    intro _
    refine within_computes_bind (computes_procVa2la r m T)
      (within_procVa2la hr m) fun _ _ => ?_
    rw [within_assign_bind]
    refine ⟨hr, ?_⟩
    exact within_computes_bind (computes_assertMultiple 0 r 0 _ 4)
      (within_assertMultiple h0 hr 0 4) fun _ _ => within_pure _
  · rename_i hint
    have hsrc' : p = ANY ∨ InTable p := by
      rcases hsrc with hp | hany | ⟨hp, hpending⟩
      · exact Or.inr hp
      · exact Or.inl hany
      · exact absurd ⟨hpending, Or.inr hp⟩ hint
    -- otherwise a sender is looked for, and what is found is an entry
    obtain ⟨hwithin, hchosen⟩ := within_chooseSender fuel hT hr hsrc'
    refine within_computes_bind (computes_chooseSender fuel r p T) hwithin
      fun choice hchoice => ?_
    cases choice with
    | none =>
        refine within_assign_bind.mpr ⟨hr, ?_⟩
        refine within_computes_bind (computes_block r _) (within_block hr)
          fun _ _ => ?_
        exact within_computes_bind (computes_assertMultiple 0 r 0 _ 8)
          (within_assertMultiple h0 hr 0 8) fun _ _ => within_pure _
    | some c =>
        obtain ⟨sender, prev⟩ := c
        -- it leaves the queue, and its message is copied
        obtain ⟨hs, hprev⟩ := hchosen sender prev hchoice
        refine within_bind (within_unlinkSender hr hs hprev) fun T' _ _ => ?_
        refine within_computes_bind (computes_assertMultiple sender 0 m T' 7)
          (within_assertMultiple hs h0 m 7) fun _ _ => ?_
        refine within_computes_bind (computes_procVa2la r m T')
          (within_procVa2la hr m) fun _ _ => ?_
        rw [within_entry_bind]
        refine ⟨hs, ?_⟩
        refine within_computes_bind (computes_procVa2la sender _ T')
          (within_procVa2la hs _) fun _ _ => ?_
        rw [within_assign_bind]
        refine ⟨hs, ?_⟩
        exact within_computes_bind (computes_unblock sender _)
          (within_unblock hs) fun _ _ => within_pure _

/-! ## When a call stays in the table -/

/-- All indices of a call are in the table, and what it does depends on nothing
    else. -/
def InBounds (T : Table) (function caller r : Int) : Prop :=
  ∀ fuel m, Within InTable (sendRcvAt fuel function caller r m) T ∧
    ∀ T', (∀ i, InTable i → T' i = T i) →
      SameOn InTable (run (sendRcvAt fuel function caller r m) T')
        (run (sendRcvAt fuel function caller r m) T)

/-- No SEND to a pseudo-pid, and no RECEIVE from `INTERRUPT` that finds no
    interrupt pending. -/
def NamesEntry (T : Table) (function caller r : Int) : Prop :=
  (function ≠ SEND ∧ function ≠ RECEIVE) ∨ InTable r ∨
    (function = RECEIVE ∧
      (r = ANY ∨ r = INTERRUPT ∧ (T caller).hasIntMsg = true))

/-- **ONE CALL** with arguments that `sys_send_rcv_handler` lets through. -/
theorem inBounds_iff (hT : Pointed T) {function : Int} (hs : InTable s)
    (hne : s ≠ r) :
    InBounds T function s r ↔ NamesEntry T function s r := by
  constructor
  · intro h
    by_cases hsend : function = SEND
    · -- the first entry that `check_deadlock` reads is the receiver's
      have hcall := (h 1 0).1
      rw [sendRcvAt, if_pos hsend, kernelMsgSendAt, within_check_bind] at hcall
      have hdeadlock := within_left _ _ T (hcall hne)
      rw [checkDeadlockAt, checkDeadlockLoopAt, within_entry_bind] at hdeadlock
      exact Or.inr (Or.inl hdeadlock.1)
    · -- the first entry that `kernel_msg_rcv` reads is the sender's, unless it
      -- takes an interrupt or anybody's message
      by_cases hrcv : function = RECEIVE
      · have hcall := (h 1 0).1
        rw [sendRcvAt, if_neg hsend, if_pos hrcv, kernelMsgRcvAt,
          within_check_bind] at hcall
        obtain ⟨-, hrest⟩ := within_entry_bind.mp (hcall hne)
        by_cases hint : (T s).hasIntMsg = true ∧ (r = ANY ∨ r = INTERRUPT)
        · exact Or.inr (Or.inr ⟨hrcv,
            hint.2.imp_right fun hr => ⟨hr, hint.1⟩⟩)
        · rw [if_neg hint] at hrest
          by_cases hany : r = ANY
          · exact Or.inr (Or.inr ⟨hrcv, Or.inl hany⟩)
          · have hchoose := within_left _ _ T hrest
            rw [chooseSenderAt, if_neg hany, within_entry_bind] at hchoose
            exact Or.inr (Or.inl hchoose.1)
      · exact Or.inl ⟨hsend, hrcv⟩
  · -- within the table, the run reads the same on all tables that agree there
    intro h fuel m
    have hwithin : Within InTable (sendRcvAt fuel function s r m) T := by
      rw [sendRcvAt]
      split
      · rename_i hsend
        rcases h with ⟨hno, -⟩ | hr | ⟨hrcv, -⟩
        · exact absurd hsend hno
        · exact within_kernelMsgSend hT hs hr
        · exact absurd (hsend.symm.trans hrcv) (by decide)
      · split
        · rename_i hrcv
          rcases h with ⟨-, hno⟩ | hr | ⟨-, hr⟩
          · exact absurd hrcv hno
          · exact within_kernelMsgRcv hT hs (Or.inl hr)
          · exact within_kernelMsgRcv hT hs (Or.inr hr)
        · exact within_halt _
    exact ⟨hwithin, fun T' hT' => run_agree hwithin hT'⟩

end Bounds

/-! ## Calls that keep the table pointed -/

section Calls

variable {T T' : Table} {fuel : Nat} {p r src : Int} {m : Addr} {w : List Write}

/-- An entry that keeps its link, and sends to nobody new. -/
theorem pointed_upd (h : Pointed T) (p : Int) {f : Proc → Proc}
    (hlink : ∀ y, (f y).qPendingProc = y.qPendingProc)
    (hsend : ∀ y, (f y).procState.sending = true →
      y.procState.sending = true ∧ (f y).pidSendingto = y.pidSendingto) :
    Pointed (T.upd p f) := by
  refine ⟨fun q hq hs => ?_, fun q x hq hx => ?_⟩
  · by_cases hqp : q = p
    · subst hqp
      rw [upd_self] at hs ⊢
      obtain ⟨hs', hto⟩ := hsend _ hs
      rw [hto]
      exact h.target q hq hs'
    · rw [upd_of_ne T f hqp] at hs ⊢
      exact h.target q hq hs
  · rw [qLink_upd T p f hlink] at hx
    exact h.link q x hq hx

/-- A link to an entry keeps the pointers in the table. -/
theorem pointed_setLink (h : Pointed T) (p : Int) {l : Option Int}
    (hl : ∀ x, l = some x → InTable x) : Pointed (setLink T p l) := by
  refine ⟨fun q hq hs => ?_, fun q x hq hx => ?_⟩
  · rw [setLink_procState] at hs
    rw [setLink_pidSendingto]
    exact h.target q hq hs
  · by_cases hqp : q = p
    · subst hqp
      rw [qLink_setLink_self] at hx
      exact hl x hx
    · rw [qLink_setLink_of_ne T l hqp] at hx
      exact h.link q x hq hx

theorem inTable_none : ∀ x, (none : Option Int) = some x → InTable x := by
  intro x hx
  cases hx

/-- The entries outside do not matter. -/
theorem pointed_outside (h : Pointed T) (hin : ∀ y, InTable y → T' y = T y) :
    Pointed T' := by
  refine ⟨fun q hq hs => ?_, fun q x hq hx => ?_⟩
  · rw [hin q hq] at hs ⊢
    exact h.target q hq hs
  · rw [qLink, hin q hq] at hx
    exact h.link q x hq hx

/-- **A SEND** keeps the pointers in the table. -/
theorem pointed_kernelMsgSend (h : Pointed T) (hp : InTable p)
    (hr : InTable r) (hcall : kernelMsgSend fuel T p r m = .ok (T', w)) :
    Pointed T' := by
  obtain ⟨-, -, hdir | hblk⟩ := kernelMsgSend_cases hcall
  · rw [hdir.table]
    exact pointed_upd h r (fun _ => rfl) fun _ hs => ⟨hs, rfl⟩
  · obtain ⟨t, l, -, rfl⟩ := hblk.table
    have hblocked : Pointed (T.upd p (blockedSending r m)) := by
      refine ⟨fun q hq hs => ?_, fun q x hq hx => ?_⟩
      · by_cases hqp : q = p
        · rw [hqp, upd_self]
          exact hr
        · rw [upd_of_ne T _ hqp] at hs ⊢
          exact h.target q hq hs
      · rw [qLink_upd T p (blockedSending r m) fun _ => rfl] at hx
        exact h.link q x hq hx
    have hself : ∀ x, some p = some x → InTable x := by
      intro x hx
      obtain rfl := Option.some.inj hx
      exact hp
    exact pointed_setLink (pointed_setLink hblocked t hself) p inTable_none

/-- A RECEIVE that asks `INTERRUPT` without a pending interrupt reads words
    around the table; they must not read as a sender to the caller. -/
def NoPhantom (T : Table) (r : Int) : Prop :=
  (T r).hasIntMsg = true ∨ ¬ ((T INTERRUPT).procState.sending = true ∧
    (T INTERRUPT).pidSendingto = r)

/-- **A RECEIVE** keeps them. -/
theorem pointed_kernelMsgRcv (h : Pointed T) (hr : InTable r)
    (hsrc : IsSource src) (hphantom : src = INTERRUPT → NoPhantom T r)
    (hcall : kernelMsgRcv fuel T r src m = .ok (T', w)) : Pointed T' := by
  obtain ⟨-, hint | ⟨hnot, ⟨s, x, hf⟩ | hblk⟩⟩ := kernelMsgRcv_cases hcall
  · rw [hint.table]
    exact pointed_upd h r (fun _ => rfl) fun _ hs => ⟨hs, rfl⟩
  · have hs : InTable s := by
      rcases hf.choice with ⟨-, hhead⟩ | ⟨hany, rfl, -⟩
      · exact h.link r s hr hhead
      · rcases hsrc with hs | hs | hs
        · exact hs
        · exact absurd hs hany
        · -- the words around the table are not a sender
          rcases hphantom hs with hpending | hno
          · exact absurd ⟨hpending, Or.inr hs⟩ hnot
          · refine absurd ⟨?_, ?_⟩ hno
            · rw [← hs, hf.sender]
              rfl
            · rw [← hs]
              exact hf.target
    rw [hf.table]
    refine pointed_upd (pointed_setLink (pointed_setLink h x
      (fun y hy => h.link s y hs hy)) s inTable_none) s (fun _ => rfl) ?_
    intro y hy
    cases hy
  · rw [hblk.table]
    exact pointed_upd h r (fun _ => rfl) fun _ hs => ⟨hs, rfl⟩

/-- An interrupt keeps them. -/
theorem pointed_hwIntNotification (h : Pointed T)
    (hcall : hwIntNotification T p = .ok (T', w)) : Pointed T' := by
  rcases hwIntNotification_cases hcall with ⟨-, -, rfl, -⟩ | ⟨-, rfl, -⟩
  · exact pointed_upd h p (fun _ => rfl) fun _ hs => ⟨hs, rfl⟩
  · exact pointed_upd h p (fun _ => rfl) fun _ hs => ⟨hs, rfl⟩

end Calls

/-! ## Runs -/

/-- The steps of `KosForkQueues`, with SENDs to every pid that
    `sys_send_rcv_handler` lets through. -/
inductive Step : Sys → Label → Sys → Prop where
  | send {x : Choice} {s s' : Sys} {q r : Int} (hq : InTable q)
      (hr : IsSource r) (hpm : q ≠ TASK_PM) (huser : s.user q = .running)
      (hrun : (s.table q).procState = RUNNABLE) (hcall : s.send x q r = .ok s') :
      Step s (.send q r) s'
  | other {s s' : Sys} {e : Label} (hstep : KosForkQueues.Step s e s') :
      Step s e s'

/-- The receiver of the SEND in a step. -/
def receiverOf (s : Sys) : Label → Option Int
  | .send _ r => some r
  | .ask _ _ => some TASK_PM
  | .pm =>
      match s.pc with
      | .tell _ _ => some TASK_FS
      | .birth _ childPid => some childPid
      | .cleanup pid _ => some (s.table pid).pParent
      | .reply src => some src
      | _ => none
  | _ => none

/-- A SEND names a process of the table, and a RECEIVE from `INTERRUPT` finds
    an interrupt pending, or words that are no sender. -/
structure Bounded (s : Sys) (e : Label) : Prop where
  send : ∀ r, receiverOf s e = some r → InTable r
  rcv : ∀ q, sought s e = some (q, INTERRUPT) → NoPhantom s.table q

section Machine

variable {x : Choice} {s s' : Sys} {p r src : Int}

/-- A SEND of the system keeps them. -/
theorem pointed_send (h : Pointed s.table) (hp : InTable p) (hr : InTable r)
    (hcall : s.send x p r = .ok s') : Pointed s'.table := by
  simp only [Sys.send, bind_eq_ok, pure_eq_ok] at hcall
  obtain ⟨⟨T', w⟩, hcall, rfl⟩ := hcall
  rw [table_settle]
  exact pointed_kernelMsgSend h hp hr hcall

/-- A RECEIVE of the system keeps them. -/
theorem pointed_rcv (h : Pointed s.table) (hp : InTable p)
    (hsrc : IsSource src) (hphantom : src = INTERRUPT → NoPhantom s.table p)
    (hcall : s.rcv x p src = .ok s') : Pointed s'.table := by
  simp only [Sys.rcv, bind_eq_ok, pure_eq_ok] at hcall
  obtain ⟨⟨T', w⟩, hcall, rfl⟩ := hcall
  rw [table_settle]
  exact pointed_kernelMsgRcv h hp hsrc hphantom hcall

/-- PM changes an entry, but nothing of its messages. -/
theorem pointed_set (h : Pointed s.table) (q : Int) {f : Proc → Proc}
    (hlink : ∀ y, (f y).qPendingProc = y.qPendingProc)
    (hsend : ∀ y, (f y).procState.sending = true →
      y.procState.sending = true ∧ (f y).pidSendingto = y.pidSendingto) :
    Pointed (s.upd q f).table := pointed_upd h q hlink hsend

/-- The loop of `do_wait` keeps them. -/
theorem pointed_scanChildren (h : Pointed s.table) :
    ∀ {n : Nat} {i : Int} {hasChildren : Nat},
      Pointed (scanChildren s p n i hasChildren).table := by
  intro n
  induction n with
  | zero =>
      intro i hasChildren
      rw [scanChildren]
      split
      · exact pointed_set h p (fun _ => rfl) fun _ hs => ⟨hs, rfl⟩
      · exact h
  | succ n ih =>
      intro i hasChildren
      rw [scanChildren]
      split
      · split
        · exact h
        · exact ih
      · exact ih

/-- The report of a status keeps them. -/
theorem pointed_reportExit (h : Pointed s.table) {status : Int} :
    Pointed (reportExit s p status).table := by
  have h₁ : Pointed (s.upd p fun y => { y with exitStatus := status }).table :=
    pointed_set h p (fun _ => rfl) fun _ hs => ⟨hs, rfl⟩
  rw [reportExit]
  dsimp only
  split
  · exact pointed_set h₁ _ (fun _ => rfl) fun _ hs => ⟨hs, rfl⟩
  · exact pointed_set h₁ _ (fun _ => rfl) fun _ hs => ⟨hs, rfl⟩

/-- So does the new parent of a child. -/
theorem pointed_adoptOne (h : Pointed s.table) {i : Nat} :
    Pointed (adoptOne s p i).table := by
  have h₁ : Pointed (s.upd i (setParent INIT)).table :=
    pointed_set h i (fun _ => rfl) fun _ hs => ⟨hs, rfl⟩
  rw [adoptOne]
  dsimp only
  split
  · split
    · split
      · exact pointed_set h₁ _ (fun _ => rfl) fun _ hs => ⟨hs, rfl⟩
      · exact h₁
    · exact h
  · exact h

/-- The copy of a process has its links and its receiver. -/
theorem pointed_forkSlot (h : Pointed s.table) {c base : Int}
    (hp : InTable p) : Pointed (forkSlot s p c base).table := by
  have hself := KosForkQueues.forkSlot_self s p c base
  have hother : ∀ y, y ≠ c → (forkSlot s p c base).table y = s.table y :=
    fun y hy => upd_of_ne s.table (fun _ => childProc p base (s.table p)) hy
  refine ⟨fun q hq hs => ?_, fun q x hq hx => ?_⟩
  · by_cases hqc : q = c
    · rw [hqc, hself] at hs ⊢
      exact h.target p hp hs
    · rw [hother q hqc] at hs ⊢
      exact h.target q hq hs
  · rw [qLink] at hx
    by_cases hqc : q = c
    · rw [hqc, hself] at hx
      exact h.link p x hp hx
    · rw [hother q hqc] at hx
      exact h.link q x hq hx

/-- So does what PM does with a message. -/
theorem pointed_dispatch (h : Pointed s.table) (hbase : KosForkExec.Inv s)
    (hpc : s.pc = .dispatch) (hcall : dispatch x s = .ok s') :
    Pointed s'.table := by
  unfold dispatch at hcall
  split at hcall
  · cases hcall
  · rename_i src hmsg
    split at hcall
    · rw [pure_eq_ok] at hcall
      subst hcall
      exact h
    · simp only [bind_eq_ok, pure_eq_ok] at hcall
      obtain ⟨base, -, rfl⟩ := hcall
      have hcaller : s.user src ≠ .running := by
        intro hu
        rcases hbase.message hpc src .fork hmsg with hu' | hu' <;>
          · rw [hu'] at hu
            cases hu
      exact pointed_forkSlot h (hbase.caller src hcaller).1
  · rw [pure_eq_ok] at hcall
    subst hcall
    exact h
  · rw [pure_eq_ok] at hcall
    subst hcall
    exact h
  · rw [pure_eq_ok] at hcall
    subst hcall
    exact pointed_scanChildren h

/-- So does every step of PM. -/
theorem pointed_pmStep (h : Pointed s.table) (hbase : KosForkExec.Inv s)
    (hg : Bounded s .pm) (hcall : pmStep x s = .ok s') : Pointed s'.table := by
  have hpm : InTable TASK_PM := by decide
  have hsend := hg.send
  -- PM does not ask for interrupts
  have hany : (ANY : Int) = INTERRUPT → NoPhantom s.table TASK_PM :=
    fun h => absurd h (by decide)
  have hfs : (TASK_FS : Int) = INTERRUPT → NoPhantom s.table TASK_PM :=
    fun h => absurd h (by decide)
  cases hpc : s.pc with
  | receive =>
      simp only [pmStep, hpc] at hcall
      exact pointed_rcv (s := { s with pc := .dispatch, pmMsg := none }) h hpm
        (Or.inr (Or.inl rfl)) hany hcall
  | dispatch =>
      simp only [pmStep, hpc] at hcall
      exact pointed_dispatch h hbase hpc hcall
  | tell src job =>
      simp only [pmStep, hpc] at hcall
      exact pointed_send (s := { s with pc := .hear src job }) h hpm
        (hsend _ (by simp only [receiverOf, hpc])) hcall
  | hear src job =>
      simp only [pmStep, hpc] at hcall
      exact pointed_rcv (s := { s with pc := afterFs x.ok src job }) h hpm
        (Or.inl (by decide)) hfs hcall
  | birth src childPid =>
      simp only [pmStep, hpc] at hcall
      exact pointed_send (s := { s with pc := .reply src }) h hpm
        (hsend _ (by simp only [receiverOf, hpc])) hcall
  | overwrite src =>
      simp only [pmStep, hpc, pure_eq_ok] at hcall
      subst hcall
      exact h
  | report currentPid status =>
      simp only [pmStep, hpc, pure_eq_ok] at hcall
      subst hcall
      exact pointed_reportExit h
  | cleanup pid k =>
      simp only [pmStep, hpc] at hcall
      exact pointed_send (s := { s with pc := .cleaned pid k }) h hpm
        (hsend _ (by simp only [receiverOf, hpc])) hcall
  | cleaned pid k =>
      simp only [pmStep, hpc, pure_eq_ok] at hcall
      subst hcall
      refine pointed_set h pid (fun _ => rfl) ?_
      intro y hy
      cases hy
  | adopt currentPid i =>
      simp only [pmStep, hpc, pure_eq_ok] at hcall
      subst hcall
      exact pointed_adoptOne h
  | reply src =>
      simp only [pmStep, hpc] at hcall
      exact pointed_send (s := { s with pc := .receive }) h hpm
        (hsend _ (by simp only [receiverOf, hpc])) hcall

/-- The condition rules out what the steps of `KosForkQueues` do not have. -/
theorem known_step {e : Label} (hg : Bounded s e) (hstep : Step s e s') :
    KosForkQueues.Step s e s' := by
  cases hstep with
  | send hq _ hpm huser hrun hcall =>
      exact .send hq (hg.send _ rfl) hpm huser hrun hcall
  | other hstep => exact hstep

/-- **STEP**: a bounded step keeps the table pointed. -/
theorem pointed_step {e : Label} (h : Pointed s.table)
    (hbase : KosForkExec.Inv s) (hg : Bounded s e) (hstep : Step s e s') :
    Pointed s'.table := by
  cases known_step hg hstep with
  | send hq hr _ _ _ hcall => exact pointed_send h hq hr hcall
  | rcv hq hsrc _ _ _ hcall =>
      refine pointed_rcv h hq hsrc ?_ hcall
      rintro rfl
      exact hg.rcv _ rfl
  | other hsend hrcv hstep =>
      -- steps that are no system call of a process: PM's calls, interrupts,
      -- what is around the table, and PM's own work
      cases e with
      | send q r => exact absurd rfl (hsend q r)
      | rcv q src => exact absurd rfl (hrcv q src)
      | ask q call =>
          cases hstep with
          | ask hq _ _ _ _ hcall =>
              exact pointed_send (s := s.setUser q (.sent call)) h hq
                (hg.send _ rfl) hcall
      | listen q =>
          cases hstep with
          | @listen _ _ _ _ call huser _ hcall =>
              have hq : InTable q := by
                refine (hbase.caller q ?_).1
                rw [huser]
                simp
              refine pointed_rcv (s := s.setUser q (.asked call)) h hq
                (Or.inl (by decide)) ?_ hcall
              intro hpm
              exact absurd hpm (by decide)
      | hwInt p =>
          cases hstep with
          | hwInt _ _ hcall => exact pointed_hwIntNotification h hcall
      | outside =>
          cases hstep with
          | outside hin => exact pointed_outside h hin
      | pm =>
          cases hstep with
          | pm _ hcall => exact pointed_pmStep h hbase hg hcall

/-- At boot no pointer is set. -/
theorem pointed_boot (h : Boot s) : Pointed s.table := by
  obtain ⟨kTop, outside, htab⟩ := h.table
  rw [htab]
  refine ⟨fun q hq hs => ?_, fun q x hq hx => ?_⟩
  · rw [initProcess_sending kTop outside hq] at hs
    cases hs
  · rw [qLink, (initProcess_idle kTop outside hq).2.1] at hx
    cases hx

/-- The states are those of the runs with orderly queues. -/
theorem known_reach (h : Reach Boot Step Bounded s) :
    Reach Boot KosForkQueues.Step Bounded s := by
  induction h with
  | start h => exact .start h
  | next _ hg hs ih => exact .next ih hg (known_step hg hs)

/-- In every state of a run the pointers are in the table. -/
theorem pointed_reach (h : Reach Boot Step Bounded s) : Pointed s.table :=
  reach_invariant_of KosForkExec.Inv (fun s => Pointed s.table)
    (fun _ h => KosForkQueues.base_reach (known_reach h))
    (fun _ h => pointed_boot h)
    (fun _ _ _ hbase _ h hg hstep => pointed_step h hbase hg hstep) h

/-- **INDICES IN THE TABLE**: after every run of bounded steps, any next call
    that passes the assertions of `sys_send_rcv_handler` has all its indices in
    the table, and depends on nothing else, if and only if it names an entry
    where it uses one. -/
theorem ipc_inBounds (h : Reach Boot Step Bounded s) (function : Int)
    (hp : InTable p) (hne : p ≠ r) :
    InBounds s.table function p r ↔ NamesEntry s.table function p r :=
  inBounds_iff (pointed_reach h) hp hne

end Machine

/-! ## The normal wait for the disk -/

/-- The disk has interrupted before the driver waits for it. -/
def interruptedSys : Sys :=
  { bootSys with
    table := bootSys.table.upd TASK_HD fun x => { x with hasIntMsg := true } }

/-- A run to the state below. -/
theorem interruptedSys_reach : Reach Boot Step Bounded interruptedSys := by
  have hcall : hwIntNotification bootSys.table TASK_HD =
      .ok (interruptedSys.table, []) := rfl
  have hstep : KosForkQueues.Step bootSys (.hwInt TASK_HD) interruptedSys :=
    .other (by simp) (by simp) (.hwInt (by decide) (by decide) hcall)
  refine .next (.start bootSys_boot) ⟨fun r hr => ?_, fun q hq => ?_⟩
    (.other hstep)
  · cases hr
  · cases hq

/-- A wait that finds its interrupt pending stays in the table. -/
theorem ipc_inBounds_pending :
    InBounds interruptedSys.table RECEIVE TASK_HD INTERRUPT :=
  (ipc_inBounds interruptedSys_reach RECEIVE (by decide) (by decide)).mpr
    (Or.inr (Or.inr ⟨rfl, Or.inr ⟨rfl, by decide⟩⟩))

/-- Words around the table that read as a sender to the disk driver. -/
def phantomTable : Table := fun i =>
  if i = INTERRUPT then
    { freeProc with procState := SENDING, pidSendingto := TASK_HD }
  else bootSys.table i

/-- **OUT OF THE TABLE**: a wait for the disk that comes before the interrupt
    reads `proc_table[INTERRUPT]`, and a SEND to `ANY` reads `proc_table[ANY]`.
    The words there decide whether the wait blocks or halts the machine. -/
theorem hd_wait_reads_outside :
    Reach Boot Step Bounded bootSys ∧
      INTERRUPT ∈ trace (sendRcvAt 2 RECEIVE TASK_HD INTERRUPT 0x1000)
        bootSys.table ∧
      ¬ InTable INTERRUPT ∧
      ANY ∈ trace (sendRcvAt 2 SEND INIT ANY 0x1000) bootSys.table ∧
      ¬ InTable ANY ∧
      (∀ i, InTable i → phantomTable i = bootSys.table i) ∧
      (∃ T, run (sendRcvAt 2 RECEIVE TASK_HD INTERRUPT 0x1000) bootSys.table =
        .ok (T, [])) ∧
      run (sendRcvAt 2 RECEIVE TASK_HD INTERRUPT 0x1000) phantomTable =
        .error .assertionFailure ∧
      ¬ InBounds bootSys.table RECEIVE TASK_HD INTERRUPT ∧
      ¬ InBounds bootSys.table SEND INIT ANY := by
  have hint : INTERRUPT ∈ trace (sendRcvAt 2 RECEIVE TASK_HD INTERRUPT 0x1000)
      bootSys.table := by decide +kernel
  have hany : ANY ∈ trace (sendRcvAt 2 SEND INIT ANY 0x1000) bootSys.table := by
    decide +kernel
  have hint' : ¬ InTable INTERRUPT := by decide
  have hany' : ¬ InTable ANY := by decide
  refine ⟨.start bootSys_boot, hint, hint', hany, hany', ?_, ⟨_, rfl⟩, rfl,
    fun h => hint' ((h 2 0x1000).1 _ hint),
    fun h => hany' ((h 2 0x1000).1 _ hany)⟩
  intro i hi
  refine if_neg ?_
  rintro rfl
  exact hint' hi

end KosIpcIndex
