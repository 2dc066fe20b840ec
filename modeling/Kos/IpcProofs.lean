import Kos.GuardedRunProofs
import Kos.KernelProofs
import Kos.LinkChainProofs

/-! # The message passing of `kernel/ipc.c`

    `check_deadlock`, `kernel_msg_send`, `kernel_msg_rcv` and
    `hw_int_notification` as functions on the process table.  The table code
    never reads a message, so what it does to memory is returned as a list of
    `Write`s.  The loops walk links without a bound; here every loop takes
    `fuel`, and a walk that uses it up is `Halt.spin`.

    For each function there is one inversion lemma that says everything a
    successful call can have done; no later proof unfolds the function. -/

namespace KosIpc

open FlatMemory KosKernel LinkChain GuardedRun

/-- What the message passing does to memory.  The process whose buffer is
    written comes first. -/
inductive Write where
  /-- `phys_copy` of a whole message from the sender's buffer -/
  | copyMsg (receiver sender : Int) (dst src : Addr)
  /-- `phys_copy` of a cleared message with source `INTERRUPT`, type `HW_INT` -/
  | copyIntMsg (receiver : Int) (dst : Addr)
  /-- assignment of source `INTERRUPT` and type `HW_INT` in place -/
  | setIntMsg (receiver : Int) (dst : Addr)
  deriving DecidableEq, Repr

/-! ## The source functions -/

/-- `assert_multiple`. -/
def assertMultiple (T : Table) (sender receiver : Int) (m : Addr) :
    Nat → Except Halt Unit
  | 1 => do
      assert ((T receiver).pendingMsg ≠ 0)
      assert (m ≠ 0)
  | 2 => do
      assert ((T receiver).procState = RUNNABLE)
      assert ((T receiver).pendingMsg = 0)
      assert ((T receiver).pidRecvingfrom = NO_TASK)
      assert ((T receiver).pidSendingto = NO_TASK)
      assert ((T sender).procState = RUNNABLE)
      assert ((T sender).pendingMsg = 0)
      assert ((T sender).pidRecvingfrom = NO_TASK)
      assert ((T sender).pidSendingto = NO_TASK)
  | 3 => do
      assert ((T sender).procState = SENDING)
      assert ((T sender).pendingMsg ≠ 0)
      assert ((T sender).pidRecvingfrom = NO_TASK)
  | 4 => do
      assert ((T receiver).procState = RUNNABLE)
      assert ((T receiver).pendingMsg = 0)
      assert ((T receiver).pidSendingto = NO_TASK)
      assert ((T receiver).hasIntMsg = false)
  | 5 | 6 => do
      assert ((T receiver).procState = RUNNABLE)
      assert ((T receiver).pendingMsg = 0)
      assert ((T receiver).pidRecvingfrom = NO_TASK)
      assert ((T receiver).pidSendingto = NO_TASK)
      assert ((T receiver).qPendingProc ≠ none)
      assert ((T sender).procState = SENDING)
      assert ((T sender).pendingMsg ≠ 0)
      assert ((T sender).pidRecvingfrom = NO_TASK)
      assert ((T sender).pidSendingto = receiver)
  | 7 => do
      assert (m ≠ 0)
      assert ((T sender).pendingMsg ≠ 0)
  | 8 => do
      assert ((T receiver).procState = RECEIVING)
      assert ((T receiver).pendingMsg ≠ 0)
      assert ((T receiver).pidRecvingfrom ≠ NO_TASK)
      assert ((T receiver).pidSendingto = NO_TASK)
      assert ((T receiver).hasIntMsg = false)
  | 9 => do
      assert ((T receiver).procState = RUNNABLE)
      assert ((T receiver).pendingMsg = 0)
      assert ((T receiver).pidRecvingfrom = NO_TASK)
      assert ((T receiver).pidSendingto = NO_TASK)
  | _ => pure ()

/-- `block`, up to the choice of the next process that `schedule` makes. -/
def block (T : Table) (p : Int) : Except Halt Unit :=
  assert ((T p).procState ≠ RUNNABLE)

/-- `unblock`. -/
def unblock (T : Table) (p : Int) : Except Halt Unit :=
  assert ((T p).procState = RUNNABLE)

/-- The loop of `check_deadlock` that prints the chain it has found. -/
def printChain (T : Table) (pidSender : Int) : Nat → Int → Except Halt Unit
  | 0, _ => .error .spin
  | n + 1, p => do
      assert ((T p).pendingMsg ≠ 0)
      if (T p).pidSendingto = pidSender then pure ()
      else printChain T pidSender n (T p).pidSendingto

/-- The search loop of `check_deadlock`; `print` is the report of a chain. -/
def checkDeadlockLoop (T : Table) (pidSender : Int)
    (print : Except Halt Unit) : Nat → Int → Except Halt Bool
  | 0, _ => .error .spin
  | n + 1, p =>
      if (T p).procState.sending then
        if (T p).pidSendingto = pidSender then do
          print
          pure true
        else checkDeadlockLoop T pidSender print n (T p).pidSendingto
      else pure false

/-- `check_deadlock`. -/
def checkDeadlock (fuel : Nat) (T : Table) (pidSender pidReceiver : Int) :
    Except Halt Bool :=
  checkDeadlockLoop T pidSender (printChain T pidSender fuel pidReceiver) fuel
    pidReceiver

/-- The links of the table. -/
def qLink (T : Table) (p : Int) : Option Int := (T p).qPendingProc

/-- Set one link. -/
def setLink (T : Table) (p : Int) (q : Option Int) : Table :=
  T.upd p fun x => { x with qPendingProc := q }

/-- Link the sender behind the last cell of the receiver's chain. -/
def linkLast (fuel : Nat) (T : Table) (sender receiver : Int) :
    Except Halt Table :=
  match (T receiver).qPendingProc with
  | some p =>
      match lastOf (qLink T) fuel p with
      | some p => pure (setLink T p (some sender))
      | none => .error .spin
  | none => pure (setLink T receiver (some sender))

/-- "append to the sending queue" in `kernel_msg_send`. -/
def appendToQueue (fuel : Nat) (T : Table) (sender receiver : Int) :
    Except Halt Table := do
  let T ← linkLast fuel T sender receiver
  pure (setLink T sender none)

/-- The first test of `kernel_msg_send`: is the receiver waiting for us? -/
def IsWaitingFor (T : Table) (receiver sender : Int) : Prop :=
  (T receiver).procState.receiving = true ∧
    ((T receiver).pidRecvingfrom = sender ∨ (T receiver).pidRecvingfrom = ANY)

instance (T : Table) (receiver sender : Int) :
    Decidable (IsWaitingFor T receiver sender) :=
  inferInstanceAs (Decidable (_ ∧ _))

/-- The receiver has got its message. -/
def delivered (p : Proc) : Proc :=
  { p with
    pendingMsg := 0
    procState := { p.procState with receiving := false }
    pidRecvingfrom := NO_TASK }

/-- The sender waits. -/
def blockedSending (receiver : Int) (m : Addr) (p : Proc) : Proc :=
  { p with
    procState := { p.procState with sending := true }
    pidSendingto := receiver
    pendingMsg := m }

/-- `kernel_msg_send`. -/
def kernelMsgSend (fuel : Nat) (T : Table) (current pidReceiver : Int)
    (m : Addr) : Except Halt (Table × List Write) := do
  let sender := current
  let receiver := pidReceiver
  assert (sender ≠ pidReceiver)
  let deadlock ← checkDeadlock fuel T sender pidReceiver
  if deadlock then .error .panic
  else if IsWaitingFor T receiver sender then do
    assertMultiple T 0 receiver m 1
    let dst ← procVa2la T pidReceiver (T receiver).pendingMsg
    let src ← procVa2la T sender m
    let T := T.upd receiver delivered
    unblock T receiver
    assertMultiple T sender receiver 0 2
    pure (T, [.copyMsg receiver sender dst src])
  else do
    let T := T.upd sender (blockedSending pidReceiver m)
    assert ((T sender).procState = SENDING)
    let T ← appendToQueue fuel T sender receiver
    block T sender
    assertMultiple T sender 0 0 3
    pure (T, [])

/-- The search of `kernel_msg_rcv` for the predecessor of a given sender. -/
def searchQueue (T : Table) (pidSender : Int) :
    Nat → Option Int → Option Int → Except Halt (Option Int)
  | 0, _, _ => .error .spin
  | _ + 1, none, prev => pure prev
  | n + 1, some p, prev => do
      assert ((T pidSender).procState.sending = true)
      if p = pidSender then pure prev
      else searchQueue T pidSender n (T p).qPendingProc (some p)

/-- The sender `kernel_msg_rcv` takes a message from, with its predecessor in
    the queue, if it takes one. -/
def chooseSender (fuel : Nat) (T : Table) (receiver pidSender : Int) :
    Except Halt (Option (Int × Option Int)) :=
  if pidSender = ANY then
    match (T receiver).qPendingProc with
    | some sender => do
        assertMultiple T sender receiver 0 5
        pure (some (sender, none))
    | none => pure none
  else if (T pidSender).procState.sending = true ∧
      (T pidSender).pidSendingto = receiver then do
    assert ((T receiver).qPendingProc ≠ none)
    let prev ← searchQueue T pidSender fuel (T receiver).qPendingProc none
    assertMultiple T pidSender receiver 0 6
    pure (some (pidSender, prev))
  else pure none

/-- Remove the chosen sender from the receiver's queue. -/
def unlinkSender (T : Table) (receiver sender : Int) (prev : Option Int) :
    Except Halt Table :=
  if (T receiver).qPendingProc = some sender then do
    assert (prev = none)
    pure (setLink (setLink T receiver (T sender).qPendingProc)
      sender none)
  else
    match prev with
    | none => .error .assertionFailure
    | some prev =>
        pure (setLink (setLink T prev (T sender).qPendingProc)
          sender none)

/-- The sender's message has been taken. -/
def released (p : Proc) : Proc :=
  { p with
    pendingMsg := 0
    pidSendingto := NO_TASK
    procState := { p.procState with sending := false } }

/-- The receiver waits. -/
def blockedReceiving (pidSender : Int) (m : Addr) (p : Proc) : Proc :=
  { p with
    procState := { p.procState with receiving := true }
    pendingMsg := m
    pidRecvingfrom := pidSender }

/-- `kernel_msg_rcv`.  For `INTERRUPT` the tests of `chooseSender` read the
    words at `proc_table[INTERRUPT]`, outside the table. -/
def kernelMsgRcv (fuel : Nat) (T : Table) (current pidSender : Int)
    (m : Addr) : Except Halt (Table × List Write) := do
  let receiver := current
  assert (receiver ≠ pidSender)
  if (T receiver).hasIntMsg = true ∧
      (pidSender = ANY ∨ pidSender = INTERRUPT) then do
    assert (m ≠ 0)
    let dst ← procVa2la T receiver m
    let T := T.upd receiver fun p => { p with hasIntMsg := false }
    assertMultiple T 0 receiver 0 4
    pure (T, [.copyIntMsg receiver dst])
  else do
    let choice ← chooseSender fuel T receiver pidSender
    match choice with
    | some (sender, prev) => do
        let T ← unlinkSender T receiver sender prev
        assertMultiple T sender 0 m 7
        let dst ← procVa2la T receiver m
        let src ← procVa2la T sender (T sender).pendingMsg
        let T := T.upd sender released
        unblock T sender
        pure (T, [.copyMsg receiver sender dst src])
    | none => do
        let T := T.upd receiver (blockedReceiving pidSender m)
        block T receiver
        assertMultiple T 0 receiver 0 8
        pure (T, [])

/-- The interrupt has been delivered. -/
def interrupted (p : Proc) : Proc :=
  { p with
    pendingMsg := 0
    hasIntMsg := false
    procState := { p.procState with receiving := false }
    pidRecvingfrom := NO_TASK }

/-- The test of `hw_int_notification`: is the process waiting for it? -/
def IsWaitingForInt (T : Table) (p : Int) : Prop :=
  (T p).procState.receiving = true ∧
    ((T p).pidRecvingfrom = INTERRUPT ∨ (T p).pidRecvingfrom = ANY)

instance (T : Table) (p : Int) : Decidable (IsWaitingForInt T p) :=
  inferInstanceAs (Decidable (_ ∧ _))

/-- `hw_int_notification`. -/
def hwIntNotification (T : Table) (taskNr : Int) :
    Except Halt (Table × List Write) :=
  if IsWaitingForInt T taskNr then do
    let dst := (T taskNr).pendingMsg
    let T := T.upd taskNr interrupted
    assert ((T taskNr).procState = RUNNABLE)
    unblock T taskNr
    assertMultiple T 0 taskNr 0 9
    pure (T, [.setIntMsg taskNr dst])
  else
    pure (T.upd taskNr fun p => { p with hasIntMsg := true }, [])

/-! ## What a successful call has done -/

/-- The entry whose link is set. -/
@[simp] theorem setLink_self (T : Table) (p : Int) (q : Option Int) :
    setLink T p q p = { T p with qPendingProc := q } := by
  simp [setLink]

/-- A link set in another entry. -/
theorem setLink_of_ne (T : Table) {p x : Int} (q : Option Int) (h : x ≠ p) :
    setLink T p q x = T x :=
  upd_of_ne T _ h

/-- The link that was set. -/
@[simp] theorem qLink_setLink_self (T : Table) (p : Int) (q : Option Int) :
    qLink (setLink T p q) p = q := by
  simp [qLink]

/-- The links of the others stay. -/
theorem qLink_setLink_of_ne (T : Table) {p x : Int} (q : Option Int)
    (h : x ≠ p) : qLink (setLink T p q) x = qLink T x := by
  rw [qLink, setLink_of_ne T q h, qLink]

/-- Redirecting links changes nothing but the links. -/
theorem setLink_frame (T : Table) (p x : Int) (q : Option Int) :
    setLink T p q x = { T x with
      qPendingProc := qLink (setLink T p q) x } := by
  by_cases h : x = p
  · subst h; rw [setLink_self, qLink_setLink_self]
  · rw [qLink_setLink_of_ne T q h, setLink_of_ne T q h, qLink]

/-- A link leaves the pending messages. -/
@[simp] theorem setLink_pendingMsg (T : Table) (p x : Int)
    (q : Option Int) :
    (setLink T p q x).pendingMsg = (T x).pendingMsg := by
  rw [setLink_frame]

/-- A link leaves the states. -/
@[simp] theorem setLink_procState (T : Table) (p x : Int)
    (q : Option Int) : (setLink T p q x).procState = (T x).procState := by
  rw [setLink_frame]

/-- A link leaves the targets. -/
@[simp] theorem setLink_pidSendingto (T : Table) (p x : Int)
    (q : Option Int) :
    (setLink T p q x).pidSendingto = (T x).pidSendingto := by
  rw [setLink_frame]

/-- An update that keeps the links keeps `qLink`. -/
theorem qLink_upd (T : Table) (p : Int) (f : Proc → Proc)
    (hf : ∀ x, (f x).qPendingProc = x.qPendingProc) :
    qLink (T.upd p f) = qLink T := by
  funext x
  by_cases h : x = p
  · subst h
    rw [qLink, upd_self, hf, qLink]
  · rw [qLink, upd_of_ne T f h, qLink]

/-- The message went straight to a waiting receiver. -/
structure SentDirect (T : Table) (s r : Int) (m : Addr) (T' : Table)
    (w : List Write) : Prop where
  waiting : IsWaitingFor T r s
  table : T' = T.upd r delivered
  writes : ∃ dst src, procVa2la T r (T r).pendingMsg = .ok dst ∧
    procVa2la T s m = .ok src ∧ w = [.copyMsg r s dst src]
  message : m ≠ 0
  pending : (T r).pendingMsg ≠ 0
  receiver : (T r).procState = RECEIVING
  idleSender : (T s).procState = RUNNABLE
  noTarget : (T r).pidSendingto = NO_TASK

/-- The sender blocked, behind the last cell `t` of the chain that starts in
    the receiver's cell. -/
structure SentBlocked (T : Table) (s r : Int) (m : Addr) (T' : Table)
    (w : List Write) : Prop where
  notWaiting : ¬ IsWaitingFor T r s
  table : ∃ t l, Links (qLink T) (some r) (l ++ [t]) ∧
    T' = setLink (setLink (T.upd s (blockedSending r m)) t (some s)) s none
  writes : w = []
  message : m ≠ 0
  others : (T s).procState = { RUNNABLE with
    sending := (T s).procState.sending }
  noSource : (T s).pidRecvingfrom = NO_TASK

/-- The sender is linked behind the last of the queue. -/
theorem appendToQueue_eq_ok {fuel : Nat} {T T' : Table} {s r : Int}
    (h : appendToQueue fuel T s r = .ok T') :
    ∃ t l, Links (qLink T) (some r) (l ++ [t]) ∧
      T' = setLink (setLink T t (some s)) s none := by
  simp only [appendToQueue, linkLast, bind_eq_ok, pure_eq_ok] at h
  obtain ⟨T₁, hT₁, rfl⟩ := h
  cases hr : (T r).qPendingProc with
  | none =>
      simp only [hr, pure_eq_ok] at hT₁
      exact ⟨r, [], ⟨rfl, hr⟩, by rw [hT₁]⟩
  | some p =>
      simp only [hr] at hT₁
      cases ht : lastOf (qLink T) fuel p with
      | none => rw [ht] at hT₁; cases hT₁
      | some t =>
          simp only [ht, pure_eq_ok] at hT₁
          obtain ⟨l, hl⟩ := links_of_lastOf ht
          refine ⟨t, r :: l, ⟨rfl, ?_⟩, by rw [hT₁]⟩
          rw [show qLink T r = some p from hr]
          exact hl

/-- **`kernel_msg_send`, inverted**: no chain of waits was found, and the
    message was delivered or the sender blocked. -/
theorem kernelMsgSend_cases {fuel : Nat} {T T' : Table} {s r : Int} {m : Addr}
    {w : List Write} (h : kernelMsgSend fuel T s r m = .ok (T', w)) :
    s ≠ r ∧ checkDeadlock fuel T s r = .ok false ∧
      (SentDirect T s r m T' w ∨ SentBlocked T s r m T' w) := by
  unfold kernelMsgSend at h
  simp only [bind_eq_ok, assert_eq_ok, exists_const] at h
  obtain ⟨hne, deadlock, hdl, h⟩ := h
  cases deadlock with
  | true => cases h
  | false =>
      refine ⟨hne, hdl, ?_⟩
      simp only [Bool.false_eq_true, if_false] at h
      by_cases hw : IsWaitingFor T r s
      · refine Or.inl ?_
        rw [if_pos hw] at h
        simp only [bind_eq_ok, assertMultiple, assert_eq_ok, exists_const,
          unblock, pure_eq_ok, Prod.mk.injEq, upd_self, delivered,
          upd_of_ne T _ hne] at h
        obtain ⟨⟨hp, hm⟩, dst, hdst, src, hsrc, hstate, ⟨-, -, -, hto, hs, -⟩,
          rfl, rfl⟩ := h
        -- the receiver ends up RUNNABLE, so RECEIVING was all it had
        have hrcv : (T r).procState = RECEIVING := by
          obtain ⟨hrec, -⟩ := hw
          cases hps : (T r).procState with
          | mk a b c d e =>
              rw [hps] at hstate hrec
              simp only [RUNNABLE, ProcState.mk.injEq] at hstate
              simp only at hrec
              simp [RECEIVING, hstate, hrec]
        exact ⟨hw, rfl, ⟨dst, src, hdst, hsrc, rfl⟩, hm, hp, hrcv, hs, hto⟩
      · refine Or.inr ?_
        rw [if_neg hw] at h
        simp only [bind_eq_ok, assertMultiple, assert_eq_ok, exists_const,
          block, pure_eq_ok, Prod.mk.injEq, upd_self] at h
        obtain ⟨hst, T₁, hT₁, -, ⟨-, hm, hfrom⟩, rfl, rfl⟩ := h
        obtain ⟨t, l, hl, rfl⟩ := appendToQueue_eq_ok hT₁
        rw [qLink_upd T s (blockedSending r m) (fun _ => rfl)] at hl
        refine ⟨hw, ⟨t, l, hl, rfl⟩, rfl, ?_, ?_, ?_⟩
        · by_cases hts : s = t
          · subst hts
            simpa [setLink, blockedSending] using hm
          · simpa [setLink, blockedSending, upd_of_ne _ _ hts] using hm
        · cases hps : (T s).procState with
          | mk a b c d e =>
              simp only [blockedSending, hps, SENDING,
                ProcState.mk.injEq] at hst
              simp [RUNNABLE, hst]
        · by_cases hts : s = t
          · subst hts
            simpa [setLink, blockedSending] using hfrom
          · simpa [setLink, blockedSending, upd_of_ne _ _ hts] using hfrom

/-- The receiver took a pending interrupt. -/
structure RcvdInt (T : Table) (r src : Int) (m : Addr) (T' : Table)
    (w : List Write) : Prop where
  pending : (T r).hasIntMsg = true
  source : src = ANY ∨ src = INTERRUPT
  table : T' = T.upd r fun p => { p with hasIntMsg := false }
  writes : ∃ dst, procVa2la T r m = .ok dst ∧ w = [.copyIntMsg r dst]
  message : m ≠ 0
  idle : (T r).procState = RUNNABLE

/-- The receiver took the message of the blocked sender `s`; `x` is the cell
    whose link is redirected. -/
structure RcvdFrom (fuel : Nat) (T : Table) (r src : Int) (m : Addr)
    (s x : Int) (T' : Table) (w : List Write) : Prop where
  choice : (src = ANY ∧ (T r).qPendingProc = some s) ∨
    (src ≠ ANY ∧ src = s ∧ (T r).qPendingProc ≠ none)
  sender : (T s).procState = SENDING
  target : (T s).pidSendingto = r
  idle : (T r).procState = RUNNABLE
  redirected :
    (x = r ∧ (T r).qPendingProc = some s) ∨
      ((T r).qPendingProc ≠ some s ∧
        searchQueue T s fuel (T r).qPendingProc none = .ok (some x))
  table : T' =
    (setLink (setLink T x (T s).qPendingProc) s none).upd s released
  writes : ∃ dst src', procVa2la T' r m = .ok dst ∧
    procVa2la T' s (T s).pendingMsg = .ok src' ∧
    w = [.copyMsg r s dst src']
  message : m ≠ 0
  pendingSender : (T s).pendingMsg ≠ 0

/-- The receiver blocked. -/
structure RcvdBlocked (T : Table) (r src : Int) (m : Addr) (T' : Table)
    (w : List Write) : Prop where
  noSender : src = ANY → (T r).qPendingProc = none
  notSending : src ≠ ANY →
    ¬ ((T src).procState.sending = true ∧ (T src).pidSendingto = r)
  table : T' = T.upd r (blockedReceiving src m)
  writes : w = []
  message : m ≠ 0
  others : (T r).procState = { RUNNABLE with
    receiving := (T r).procState.receiving }
  noInt : (T r).hasIntMsg = false
  noTarget : (T r).pidSendingto = NO_TASK

/-- The search for a sender's predecessor, when it ends, has walked the queue
    up to that sender. -/
theorem searchQueue_of_links {T : Table} {s : Int} :
    ∀ {L : List Int} {p prev x : Option Int} {fuel : Nat},
      Links (qLink T) p L → s ∈ L → searchQueue T s fuel p prev = .ok x →
      ∃ l₁ l₂, L = l₁ ++ s :: l₂ ∧ x = l₁.getLast?.or prev := by
  intro L
  induction L with
  | nil => intro p prev x fuel _ hs _; cases hs
  | cons a L ih =>
      intro p prev x fuel hl hs h
      obtain ⟨rfl, hl⟩ := hl
      cases fuel with
      | zero => cases h
      | succ n =>
          simp only [searchQueue, bind_eq_ok, assert_eq_ok,
            exists_const] at h
          obtain ⟨-, h⟩ := h
          by_cases has : a = s
          · subst has
            rw [if_pos rfl, pure_eq_ok] at h
            exact ⟨[], L, rfl, by simp [h]⟩
          · rw [if_neg has] at h
            have hs' : s ∈ L := by
              rcases List.mem_cons.mp hs with rfl | hs'
              · exact absurd rfl has
              · exact hs'
            obtain ⟨l₁, l₂, rfl, rfl⟩ := ih hl hs' h
            refine ⟨a :: l₁, l₂, rfl, ?_⟩
            cases l₁ <;> simp [List.getLast?_cons]

/-- The sender that RECEIVE takes. -/
theorem chooseSender_eq_ok {fuel : Nat} {T : Table} {r src s : Int}
    {prev : Option Int}
    (h : chooseSender fuel T r src = .ok (some (s, prev))) :
    ((src = ANY ∧ (T r).qPendingProc = some s ∧ prev = none) ∨
        (src ≠ ANY ∧ src = s ∧ (T r).qPendingProc ≠ none ∧
          searchQueue T s fuel (T r).qPendingProc none = .ok prev)) ∧
      (T s).procState = SENDING ∧ (T s).pidSendingto = r ∧
      (T r).procState = RUNNABLE := by
  unfold chooseSender at h
  by_cases ha : src = ANY
  · rw [if_pos ha] at h
    cases hq : (T r).qPendingProc with
    | none => simp [hq] at h
    | some p =>
        simp only [hq, bind_eq_ok, assertMultiple, assert_eq_ok, exists_const,
          pure_eq_ok, Option.some.injEq, Prod.mk.injEq] at h
        obtain ⟨⟨hr, -, -, -, -, hs, -, -, hto⟩, rfl, rfl⟩ := h
        exact ⟨Or.inl ⟨ha, rfl, rfl⟩, hs, hto, hr⟩
  · rw [if_neg ha] at h
    by_cases hs : (T src).procState.sending = true ∧ (T src).pidSendingto = r
    · simp only [if_pos hs, bind_eq_ok, assertMultiple, assert_eq_ok,
        exists_const, pure_eq_ok, Option.some.injEq, Prod.mk.injEq] at h
      obtain ⟨hq, prev', hprev, ⟨hr, -, -, -, -, hst, -, -, hto⟩, rfl, rfl⟩ := h
      exact ⟨Or.inr ⟨ha, rfl, hq, hprev⟩, hst, hto, hr⟩
    · simp [if_neg hs] at h

/-- When RECEIVE finds no sender. -/
theorem chooseSender_eq_none {fuel : Nat} {T : Table} {r src : Int}
    (h : chooseSender fuel T r src = .ok none) :
    (src = ANY → (T r).qPendingProc = none) ∧
      (src ≠ ANY →
        ¬ ((T src).procState.sending = true ∧ (T src).pidSendingto = r)) := by
  unfold chooseSender at h
  by_cases ha : src = ANY
  · refine ⟨fun _ => ?_, fun hne => absurd ha hne⟩
    rw [if_pos ha] at h
    cases hq : (T r).qPendingProc with
    | none => rfl
    | some p =>
        simp only [hq, bind_eq_ok, pure_eq_ok, reduceCtorEq, and_false,
          exists_false] at h
  · refine ⟨fun he => absurd he ha, fun _ hs => ?_⟩
    simp only [if_neg ha, if_pos hs, bind_eq_ok, pure_eq_ok, reduceCtorEq,
      and_false, exists_false] at h

/-- The sender is taken out from behind the head or its predecessor. -/
theorem unlinkSender_eq_ok {T T' : Table} {r s : Int} {prev : Option Int}
    (h : unlinkSender T r s prev = .ok T') :
    ∃ x, ((x = r ∧ (T r).qPendingProc = some s) ∨
        ((T r).qPendingProc ≠ some s ∧ prev = some x)) ∧
      T' = setLink (setLink T x (T s).qPendingProc) s none := by
  unfold unlinkSender at h
  by_cases hq : (T r).qPendingProc = some s
  · simp only [if_pos hq, bind_eq_ok, assert_eq_ok, exists_const,
      pure_eq_ok] at h
    exact ⟨r, Or.inl ⟨rfl, hq⟩, h.2.symm⟩
  · rw [if_neg hq] at h
    cases prev with
    | none => cases h
    | some x => exact ⟨x, Or.inr ⟨hq, rfl⟩, (pure_eq_ok.mp h).symm⟩

/-- **`kernel_msg_rcv`, inverted**: a pending interrupt was taken, a blocked
    sender's message was taken, or the receiver blocked. -/
theorem kernelMsgRcv_cases {fuel : Nat} {T T' : Table} {r src : Int}
    {m : Addr} {w : List Write}
    (h : kernelMsgRcv fuel T r src m = .ok (T', w)) :
    r ≠ src ∧
      (RcvdInt T r src m T' w ∨
        (¬ ((T r).hasIntMsg = true ∧ (src = ANY ∨ src = INTERRUPT)) ∧
          ((∃ s x, RcvdFrom fuel T r src m s x T' w) ∨
            RcvdBlocked T r src m T' w))) := by
  unfold kernelMsgRcv at h
  simp only [bind_eq_ok, assert_eq_ok, exists_const] at h
  obtain ⟨hne, h⟩ := h
  refine ⟨hne, ?_⟩
  by_cases hint : (T r).hasIntMsg = true ∧ (src = ANY ∨ src = INTERRUPT)
  · refine Or.inl ?_
    simp only [if_pos hint, bind_eq_ok, assertMultiple, assert_eq_ok,
      exists_const, pure_eq_ok, Prod.mk.injEq, upd_self] at h
    obtain ⟨hm, dst, hdst, ⟨hr, -⟩, rfl, rfl⟩ := h
    exact ⟨hint.1, hint.2, rfl, ⟨dst, hdst, rfl⟩, hm, hr⟩
  · refine Or.inr ⟨hint, ?_⟩
    simp only [if_neg hint, bind_eq_ok] at h
    obtain ⟨choice, hc, h⟩ := h
    cases choice with
    | some c =>
        obtain ⟨s, prev⟩ := c
        refine Or.inl ?_
        simp only [bind_eq_ok, assertMultiple, assert_eq_ok, exists_const,
          unblock, pure_eq_ok, Prod.mk.injEq] at h
        obtain ⟨T₁, hT₁, ⟨hm, hp⟩, dst, hdst, src', hsrc, -, rfl, rfl⟩ := h
        obtain ⟨x, hx, rfl⟩ := unlinkSender_eq_ok hT₁
        obtain ⟨hchoice, hs, hto, hr⟩ := chooseSender_eq_ok hc
        simp only [setLink_pendingMsg] at hp hsrc
        -- taking the sender off its queue leaves the descriptor tables
        have hva : ∀ (U : Table) (p : Int) (va la : Addr),
            procVa2la U p va = .ok la →
            procVa2la (U.upd s released) p va = .ok la := by
          intro U p va la hla
          rw [procVa2la_eq_ok] at hla ⊢
          by_cases hps : p = s
          · subst hps
            rw [upd_self]
            exact hla
          · rw [upd_of_ne U released hps]
            exact hla
        refine ⟨s, x, ?_, hs, hto, hr, ?_, rfl,
          ⟨dst, src', hva _ _ _ _ hdst, hva _ _ _ _ hsrc, rfl⟩, hm, hp⟩
        · rcases hchoice with ⟨ha, hq, -⟩ | ⟨ha, heq, hq, -⟩
          · exact Or.inl ⟨ha, hq⟩
          · exact Or.inr ⟨ha, heq, hq⟩
        · rcases hx with hx | ⟨hq, rfl⟩
          · exact Or.inl hx
          · rcases hchoice with ⟨-, hq', -⟩ | ⟨-, -, -, hsearch⟩
            · exact absurd hq' hq
            · exact Or.inr ⟨hq, hsearch⟩
    | none =>
        refine Or.inr ?_
        simp only [bind_eq_ok, assertMultiple, assert_eq_ok, exists_const,
          block, pure_eq_ok, Prod.mk.injEq, upd_self] at h
        obtain ⟨-, ⟨hst, hm, -, hto, hni⟩, rfl, rfl⟩ := h
        obtain ⟨hany, hsrc⟩ := chooseSender_eq_none hc
        refine ⟨hany, hsrc, rfl, rfl, hm, ?_, hni, hto⟩
        cases hps : (T r).procState with
        | mk a b c d e =>
            simp only [blockedReceiving, hps, RECEIVING,
              ProcState.mk.injEq] at hst
            simp [RUNNABLE, hst]

/-- **`hw_int_notification`, inverted**: the waiting task was woken, or the
    interrupt was noted. -/
theorem hwIntNotification_cases {T T' : Table} {p : Int} {w : List Write}
    (h : hwIntNotification T p = .ok (T', w)) :
    (IsWaitingForInt T p ∧ (T p).procState = RECEIVING ∧
        T' = T.upd p interrupted ∧ w = [.setIntMsg p (T p).pendingMsg]) ∨
      (¬ IsWaitingForInt T p ∧
        T' = T.upd p (fun x => { x with hasIntMsg := true }) ∧ w = []) := by
  unfold hwIntNotification at h
  by_cases hw : IsWaitingForInt T p
  · refine Or.inl ⟨hw, ?_⟩
    simp only [if_pos hw, bind_eq_ok, assertMultiple, assert_eq_ok,
      exists_const, unblock, pure_eq_ok, Prod.mk.injEq, upd_self] at h
    obtain ⟨hst, -, -, rfl, rfl⟩ := h
    refine ⟨?_, rfl, rfl⟩
    obtain ⟨hrec, -⟩ := hw
    cases hps : (T p).procState with
    | mk a b c d e =>
        rw [hps] at hrec
        simp only [interrupted, hps, RUNNABLE, ProcState.mk.injEq] at hst
        simp only at hrec
        simp [RECEIVING, hst, hrec]
  · refine Or.inr ⟨hw, ?_⟩
    rw [if_neg hw, pure_eq_ok, Prod.mk.injEq] at h
    exact ⟨h.1.symm, h.2.symm⟩

/-! ## What no call changes -/

/-- An entry without the fields of the message passing. -/
def rest (p : Proc) : Proc :=
  { p with
    procState := { p.procState with sending := false, receiving := false }
    pendingMsg := 0
    qPendingProc := none
    pidRecvingfrom := 0
    pidSendingto := 0
    hasIntMsg := false }

/-- A link is not among the other fields. -/
theorem rest_setLink (T : Table) (p x : Int) (q : Option Int) :
    rest (setLink T p q x) = rest (T x) := by
  rw [setLink_frame]
  rfl

/-- A change that keeps the other fields keeps them in the table. -/
theorem rest_upd {T : Table} {p : Int} {f : Proc → Proc}
    (hf : ∀ x, rest (f x) = rest x) (q : Int) :
    rest (T.upd p f q) = rest (T q) := by
  by_cases h : q = p
  · subst h; rw [upd_self, hf]
  · rw [upd_of_ne T f h]

/-- SEND keeps the other fields. -/
theorem rest_send {fuel : Nat} {T T' : Table} {p r : Int} {m : Addr}
    {w : List Write} (hcall : kernelMsgSend fuel T p r m = .ok (T', w))
    (q : Int) : rest (T' q) = rest (T q) := by
  obtain ⟨-, -, hdir | hblk⟩ := kernelMsgSend_cases hcall
  · rw [hdir.table]
    apply rest_upd
    intro x; rfl
  · obtain ⟨t, l, -, rfl⟩ := hblk.table
    rw [rest_setLink, rest_setLink]
    apply rest_upd
    intro x; rfl

/-- RECEIVE keeps the other fields. -/
theorem rest_rcv {fuel : Nat} {T T' : Table} {r src : Int} {m : Addr}
    {w : List Write} (hcall : kernelMsgRcv fuel T r src m = .ok (T', w))
    (q : Int) : rest (T' q) = rest (T q) := by
  obtain ⟨-, hint | ⟨-, ⟨s, x, hf⟩ | hblk⟩⟩ := kernelMsgRcv_cases hcall
  · rw [hint.table]
    apply rest_upd
    intro x; rfl
  · rw [hf.table, ← rest_setLink T x q (T s).qPendingProc,
      ← rest_setLink (setLink T x (T s).qPendingProc) s q none]
    apply rest_upd
    intro x; rfl
  · rw [hblk.table]
    apply rest_upd
    intro x; rfl

/-- The notification of an interrupt keeps them. -/
theorem rest_hwInt {T T' : Table} {p : Int} {w : List Write}
    (hcall : hwIntNotification T p = .ok (T', w)) (q : Int) :
    rest (T' q) = rest (T q) := by
  rcases hwIntNotification_cases hcall with ⟨-, -, rfl, -⟩ | ⟨-, rfl, -⟩
  · apply rest_upd
    intro x; rfl
  · apply rest_upd
    intro x; rfl

/-! ## Runs of calls -/

/-- A call that a process makes or an interrupt that arrives; `outside` is a
    write to memory around the table. -/
inductive Event where
  | send (caller pidReceiver : Int) (m : Addr)
  | rcv (caller pidSender : Int) (m : Addr)
  | hwInt (taskNr : Int)
  | outside
  deriving DecidableEq, Repr

/-- The source argument that `sys_send_rcv_handler` lets through. -/
def IsSource (pidSender : Int) : Prop :=
  InTable pidSender ∨ pidSender = ANY ∨ pidSender = INTERRUPT

/-- One call, made by a runnable process, that halts nothing. -/
inductive Step : Table → Event → Table → Prop where
  | send {fuel : Nat} {T T' : Table} {s r : Int} {m : Addr} {w : List Write}
      (hs : InTable s) (hrun : (T s).procState = RUNNABLE) (hr : InTable r)
      (hcall : kernelMsgSend fuel T s r m = .ok (T', w)) :
      Step T (.send s r m) T'
  | rcv {fuel : Nat} {T T' : Table} {r src : Int} {m : Addr} {w : List Write}
      (hr : InTable r) (hrun : (T r).procState = RUNNABLE)
      (hsrc : IsSource src)
      (hcall : kernelMsgRcv fuel T r src m = .ok (T', w)) :
      Step T (.rcv r src m) T'
  | hwInt {T T' : Table} {p : Int} {w : List Write} (hp : InTable p)
      (hcall : hwIntNotification T p = .ok (T', w)) : Step T (.hwInt p) T'
  | outside {T T' : Table} (hin : ∀ p, InTable p → T' p = T p) :
      Step T .outside T'

/-- **A KERNEL CALL** changes the fields of the message passing only. -/
theorem rest_step {T T' : Table} {e : Event} (hstep : Step T e T') {p : Int}
    (hp : InTable p) : rest (T' p) = rest (T p) := by
  cases hstep with
  | send _ _ _ hcall => exact rest_send hcall p
  | rcv _ _ _ hcall => exact rest_rcv hcall p
  | hwInt _ hcall => exact rest_hwInt hcall p
  | outside hin => rw [hin p hp]

/-- The tables that `init_process` can leave behind. -/
def Booted (T : Table) : Prop :=
  ∃ kTop outside, T = initProcess kTop outside

end KosIpc
